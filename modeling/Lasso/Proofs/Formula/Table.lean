import Mathlib.Data.Finset.Card
import Lasso.Formula.Table

/-! # What a table holds

A table holds formulas with everything beneath them, and at most one for each way a formula can be
written.  Making a formula adds what is missing of it and leaves all else as it is, and the size of
a table is the number of formulas that were ever made, where atomic propositions with the same text
count as one.
-/

namespace Lasso

set_option autoImplicit false

namespace Formula

/-- The formula with the text of each atomic proposition in its place. -/
def byText : Formula → Formula
  | .atom e => .atom (.symbol () e.text)
  | .unary op f => .unary op f.byText
  | .binary op f g => .binary op f.byText g.byText

theorem text_byText (f : Formula) : f.byText.text = f.text := by
  induction f with
  | atom e => rfl
  | unary op f ih => simp only [byText, text, ih]
  | binary op f g ihf ihg => simp only [byText, text, ihf, ihg]

theorem preorder_byText (f : Formula) : f.byText.preorder = f.preorder.map byText := by
  induction f with
  | atom e => rfl
  | unary op f ih => simp [byText, preorder, ih]
  | binary op f g ihf ihg => simp [byText, preorder, ihf, ihg]

theorem byText_eq_atom_iff {f : Formula} {e : Expr} :
    f.byText = (atom e).byText ↔ ∃ e', f = atom e' ∧ e'.text = e.text := by
  cases f <;> simp [byText]

theorem byText_eq_unary_iff {f k : Formula} {op : UnaryOp} :
    f.byText = (unary op k).byText ↔ ∃ g, f = unary op g ∧ g.byText = k.byText := by
  cases f <;> simp [byText]

theorem byText_eq_binary_iff {f k l : Formula} {op : BinaryOp} :
    f.byText = (binary op k l).byText ↔
      ∃ g h, f = binary op g h ∧ g.byText = k.byText ∧ h.byText = l.byText := by
  cases f <;> simp [byText]

/-- A formula and everything beneath it, up to the text of atomic propositions. -/
def keys (f : Formula) : Finset Formula := f.byText.preorder.toFinset

theorem mem_keys_iff {f k : Formula} : k ∈ f.keys ↔ ∃ g ∈ f.preorder, g.byText = k := by
  simp [keys, preorder_byText]

theorem keys_congr {f g : Formula} (h : f.byText = g.byText) : f.keys = g.keys := by
  rw [keys, keys, h]

theorem mem_preorder_self (f : Formula) : f ∈ f.preorder := by
  cases f <;> simp [preorder]

/-- What passes from a formula to its operands passes to everything beneath it. -/
theorem forall_mem_preorder {p : Formula → Prop} (hunary : ∀ {op f}, p (unary op f) → p f)
    (hbinary : ∀ {op f g}, p (binary op f g) → p f ∧ p g) {f : Formula} (hf : p f) :
    ∀ g ∈ f.preorder, p g := by
  induction f with
  | atom e => simpa [preorder] using hf
  | unary op f ih =>
    rw [preorder, List.forall_mem_cons]
    exact ⟨hf, ih (hunary hf)⟩
  | binary op f g ihf ihg =>
    rw [preorder, List.forall_mem_cons, List.forall_mem_append]
    exact ⟨hf, ihf (hbinary hf).1, ihg (hbinary hf).2⟩

theorem byText_mem_keys (f : Formula) : f.byText ∈ f.keys :=
  mem_keys_iff.2 ⟨f, f.mem_preorder_self, rfl⟩

@[simp] theorem keys_unary (op : UnaryOp) (f : Formula) :
    (unary op f).keys = insert (unary op f).byText f.keys := by
  simp [keys, byText, preorder]

@[simp] theorem keys_binary (op : BinaryOp) (f g : Formula) :
    (binary op f g).keys = insert (binary op f g).byText (f.keys ∪ g.keys) := by
  simp [keys, byText, preorder]

theorem keys_subset_unary (op : UnaryOp) (f : Formula) : f.keys ⊆ (unary op f).keys := by
  rw [keys_unary]
  exact Finset.subset_insert _ _

theorem keys_subset_left (op : BinaryOp) (f g : Formula) : f.keys ⊆ (binary op f g).keys := by
  rw [keys_binary]
  exact Finset.subset_union_left.trans (Finset.subset_insert _ _)

theorem keys_subset_right (op : BinaryOp) (f g : Formula) : g.keys ⊆ (binary op f g).keys := by
  rw [keys_binary]
  exact Finset.subset_union_right.trans (Finset.subset_insert _ _)

theorem keys_subset_negateIf (negated : Bool) (f : Formula) :
    f.keys ⊆ (f.negateIf negated).keys := by
  cases negated with
  | false => exact Finset.Subset.refl _
  | true => exact keys_subset_unary .not f

end Formula

namespace Table

open Formula

/-- A formula is the one in the table. -/
def Has (t : Table) : Formula → Prop
  | .atom e => t.atoms[e.text]? = some e
  | f => f ∈ t.compounds

structure WellFormed (t : Table) : Prop where
  text : ∀ {k : String} {e : Expr}, t.atoms[k]? = some e → e.text = k
  unary : ∀ {op : UnaryOp} {f : Formula}, t.Has (.unary op f) → t.Has f
  binary : ∀ {op : BinaryOp} {f g : Formula}, t.Has (.binary op f g) → t.Has f ∧ t.Has g

theorem WellFormed.has_of_mem {t : Table} (wf : t.WellFormed) {f g : Formula} (hf : t.Has f)
    (hg : g ∈ f.preorder) : t.Has g :=
  forall_mem_preorder wf.unary wf.binary hf g hg

/-- A table holds one formula for each way of writing it. -/
theorem WellFormed.eq_of_byText_eq {t : Table} (wf : t.WellFormed) {f g : Formula} (hf : t.Has f)
    (hg : t.Has g) (h : g.byText = f.byText) : g = f := by
  induction f generalizing g with
  | atom e =>
    obtain ⟨e', rfl, htext⟩ := byText_eq_atom_iff.1 h
    have he : t.atoms[e.text]? = some e := hf
    have he' : t.atoms[e'.text]? = some e' := hg
    rw [htext, he] at he'
    cases he'
    rfl
  | unary op f ih =>
    obtain ⟨g, rfl, hgf⟩ := byText_eq_unary_iff.1 h
    rw [ih (wf.unary hf) (wf.unary hg) hgf]
  | binary op f₁ f₂ ih₁ ih₂ =>
    obtain ⟨g₁, g₂, rfl, hg₁, hg₂⟩ := byText_eq_binary_iff.1 h
    rw [ih₁ (wf.binary hf).1 (wf.binary hg).1 hg₁, ih₂ (wf.binary hf).2 (wf.binary hg).2 hg₂]

/-- The formulas in a table are those of a set, up to the text of atomic propositions. -/
structure Records (t : Table) (S : Finset Formula) : Prop where
  wf : t.WellFormed
  mem_iff : ∀ k, k ∈ S ↔ ∃ f, t.Has f ∧ f.byText = k
  size_eq : t.size = S.card

/-- A table in which formulas can be made. -/
def Sound (t : Table) : Prop := ∃ S, t.Records S

theorem Sound.wf {t : Table} (h : t.Sound) : t.WellFormed := h.choose_spec.wf

theorem not_has_empty (f : Formula) : ¬ (∅ : Table).Has f := by
  cases f with
  | atom e => exact fun h => absurd h (by simp [show (∅ : Table).atoms = ∅ from rfl, Has])
  | unary op f => exact Std.HashSet.not_mem_empty
  | binary op f g => exact Std.HashSet.not_mem_empty

theorem records_empty : (∅ : Table).Records ∅ := by
  refine ⟨⟨?_, fun h => absurd h (not_has_empty _), fun h => absurd h (not_has_empty _)⟩, ?_, rfl⟩
  · intro k e h
    simp [show (∅ : Table).atoms = ∅ from rfl] at h
  · intro k
    simp [not_has_empty]

def Keeps (t t' : Table) : Prop := ∀ f, t.Has f → t'.Has f

/-- Some formulas of a set are added, and none is lost. -/
structure Adds (K : Finset Formula) (t t' : Table) : Prop where
  sound : t'.Sound
  keeps : t.Keeps t'
  new : ∀ {f : Formula}, t'.Has f → t.Has f ∨ f.byText ∈ K

variable {t t' t'' : Table} {S K L : Finset Formula}

theorem Sound.adds_self (h : t.Sound) (K : Finset Formula) : Adds K t t :=
  ⟨h, fun _ hf => hf, .inl⟩

theorem Adds.mono (h : Adds K t t') (hsub : K ⊆ L) : Adds L t t' :=
  ⟨h.sound, h.keeps, fun hf => (h.new hf).imp_right (hsub ·)⟩

theorem Adds.trans (h : Adds K t t') (h' : Adds K t' t'') : Adds K t t'' :=
  ⟨h'.sound, fun f hf => h'.keeps f (h.keeps f hf), fun hf => (h'.new hf).elim h.new .inr⟩

theorem Adds.records (h : Adds K t t') (hS : t.Records S)
    (hK : ∀ k ∈ K, ∃ f, t'.Has f ∧ f.byText = k) : t'.Records (S ∪ K) := by
  obtain ⟨S', hS'⟩ := h.sound
  have heq : S' = S ∪ K := by
    ext k
    rw [Finset.mem_union, hS'.mem_iff]
    constructor
    · rintro ⟨f, hf, rfl⟩
      exact (h.new hf).imp_left fun hf => (hS.mem_iff _).2 ⟨f, hf, rfl⟩
    · rintro (hk | hk)
      · obtain ⟨f, hf, rfl⟩ := (hS.mem_iff _).1 hk
        exact ⟨f, h.keeps f hf, rfl⟩
      · exact hK k hk
  exact heq ▸ hS'

/-- Making a formula adds what is missing of it, and returns the one in the table. -/
structure Makes (t : Table) (f : Formula) (r : Formula × Table) : Prop where
  adds : Adds f.keys t r.2
  has : r.2.Has r.1
  byText_eq : r.1.byText = f.byText

theorem Makes.congr {f g : Formula} {r : Formula × Table} (h : Makes t f r)
    (hfg : f.byText = g.byText) : Makes t g r :=
  ⟨keys_congr hfg ▸ h.adds, h.has, h.byText_eq.trans hfg⟩

theorem Sound.makes (h : t.Sound) {f : Formula} (hf : t.Has f) : Makes t f (f, t) :=
  ⟨h.adds_self _, hf, rfl⟩

theorem Makes.after {f : Formula} {r : Formula × Table} (h' : Makes t' f r)
    (h : Adds f.keys t t') : Makes t f r :=
  ⟨h.trans h'.adds, h'.has, h'.byText_eq⟩

theorem Sound.makes_new (h : t.Sound) {f : Formula}
    (hhas : ∀ {g : Formula}, t'.Has g ↔ g = f ∨ t.Has g)
    (htext : ∀ {k : String} {e : Expr}, t'.atoms[k]? = some e → e.text = k)
    (hsize : t'.size = t.size + 1) (hnew : ∀ {g : Formula}, t.Has g → g.byText ≠ f.byText)
    (hparts : ∀ g ∈ f.preorder, g = f ∨ t.Has g) : Makes t f (f, t') := by
  obtain ⟨S, hS⟩ := h
  have hnotMem : f.byText ∉ S := by
    rw [hS.mem_iff]
    rintro ⟨g, hg, hfg⟩
    exact hnew hg hfg
  have hwf : t'.WellFormed := by
    refine ⟨htext, ?_, ?_⟩
    · intro op g hg
      obtain rfl | hg := hhas.1 hg
      · exact hhas.2 (hparts g (by simp [preorder, mem_preorder_self]))
      · exact hhas.2 (.inr (hS.wf.unary hg))
    · intro op g₁ g₂ hg
      obtain rfl | hg := hhas.1 hg
      · exact ⟨hhas.2 (hparts g₁ (by simp [preorder, mem_preorder_self])),
          hhas.2 (hparts g₂ (by simp [preorder, mem_preorder_self]))⟩
      · exact ⟨hhas.2 (.inr (hS.wf.binary hg).1), hhas.2 (.inr (hS.wf.binary hg).2)⟩
  have hrecords : t'.Records (insert f.byText S) := by
    refine ⟨hwf, ?_, ?_⟩
    · intro k
      simp only [Finset.mem_insert, hS.mem_iff, hhas]
      constructor
      · rintro (rfl | ⟨g, hg, rfl⟩)
        · exact ⟨f, .inl rfl, rfl⟩
        · exact ⟨g, .inr hg, rfl⟩
      · rintro ⟨g, rfl | hg, rfl⟩
        · exact .inl rfl
        · exact .inr ⟨g, hg, rfl⟩
    · rw [Finset.card_insert_of_notMem hnotMem, hsize, hS.size_eq]
  refine ⟨⟨⟨_, hrecords⟩, fun g hg => hhas.2 (.inr hg), ?_⟩, hhas.2 (.inl rfl), rfl⟩
  intro g hg
  obtain rfl | hg := hhas.1 hg
  · exact .inr (byText_mem_keys _)
  · exact .inl hg

theorem atom_makes (h : t.Sound) (e : Expr) : Makes t (.atom e) (atom e t) := by
  unfold atom
  cases he : t.atoms[e.text]? with
  | some first =>
    have htext := h.wf.text he
    have hfirst : t.Has (.atom first) := by
      rw [← htext] at he
      exact he
    exact (h.makes hfirst).congr (by simp only [byText, htext])
  | none =>
    have hnotMem : e.text ∉ t.atoms := by simpa using he
    refine h.makes_new ?_ ?_ ?_ ?_ ?_
    · intro f
      cases f with
      | atom e' =>
        simp only [Has, Std.HashMap.getElem?_insert, beq_iff_eq, atom.injEq]
        split
        · rename_i htext
          rw [← htext, he, Option.some.injEq]
          simp [eq_comm]
        · rename_i htext
          rw [or_iff_right]
          rintro rfl
          exact htext rfl
      | unary op f => simp [Has]
      | binary op f g => simp [Has]
    · intro k e' he'
      simp only [Std.HashMap.getElem?_insert] at he'
      split at he'
      · rename_i hk
        cases he'
        exact eq_of_beq hk
      · exact h.wf.text he'
    · simp [size, Std.HashMap.size_insert, hnotMem]
      omega
    · intro g hg hbyText
      obtain ⟨e', rfl, htext⟩ := byText_eq_atom_iff.1 hbyText
      have he' : t.atoms[e'.text]? = some e' := hg
      rw [htext, he] at he'
      cases he'
    · intro g hg
      exact .inl (List.mem_singleton.1 hg)

theorem mem_of_get?_eq_some {s : Std.HashSet Formula} {f g : Formula} (h : s.get? f = some g) :
    f ∈ s := by
  rw [Std.HashSet.mem_iff_isSome_get?, h]
  rfl

theorem not_mem_of_get?_eq_none {s : Std.HashSet Formula} {f : Formula} (h : s.get? f = none) :
    f ∉ s := by
  rw [Std.HashSet.mem_iff_isSome_get?, h]
  exact Bool.false_ne_true

theorem add_eq (f : Formula) (t : Table) :
    add f t = (f, if f ∈ t.compounds then t else { t with compounds := t.compounds.insert f }) := by
  unfold add
  cases hf : t.compounds.get? f with
  | some g => rw [if_pos (mem_of_get?_eq_some hf), eq_of_get?_eq_some hf]
  | none => rw [if_neg (not_mem_of_get?_eq_none hf)]

theorem add_makes (h : t.Sound) {f : Formula} (hatom : ∀ e, f ≠ .atom e)
    (hparts : ∀ g ∈ f.preorder, g = f ∨ t.Has g)
    (hunique : ∀ {g : Formula}, t.Has g → g.byText = f.byText → g = f) :
    Makes t f (add f t) := by
  have hhas : t.Has f ↔ f ∈ t.compounds := by
    cases f with
    | atom e => exact absurd rfl (hatom e)
    | unary op f => exact Iff.rfl
    | binary op f g => exact Iff.rfl
  have hinsert : ∀ {g : Formula}, g ∈ t.compounds.insert f ↔ g = f ∨ g ∈ t.compounds := by
    intro g
    rw [Std.HashSet.mem_insert, beq_iff_eq, eq_comm]
  rw [add_eq]
  split
  · rename_i hmem
    exact h.makes (hhas.2 hmem)
  · rename_i hmem
    refine h.makes_new ?_ h.wf.text ?_ ?_ hparts
    · intro g
      cases g with
      | atom e => exact (or_iff_right (hatom e).symm).symm
      | unary op g => exact hinsert
      | binary op g₁ g₂ => exact hinsert
    · rw [size, size, Std.HashSet.size_insert, if_neg hmem, Nat.add_assoc]
    · intro g hg hbyText
      exact hmem (hhas.1 (hunique hg hbyText ▸ hg))

theorem add_unary_makes (h : t.Sound) (op : UnaryOp) {f : Formula} (hf : t.Has f) :
    Makes t (.unary op f) (add (.unary op f) t) := by
  refine add_makes h (by simp) ?_ ?_
  · intro g hg
    exact (List.mem_cons.1 hg).imp_right (h.wf.has_of_mem hf)
  · intro g hg hbyText
    obtain ⟨g, rfl, hgf⟩ := byText_eq_unary_iff.1 hbyText
    rw [h.wf.eq_of_byText_eq hf (h.wf.unary hg) hgf]

theorem add_binary_makes (h : t.Sound) (op : BinaryOp) {f g : Formula} (hf : t.Has f)
    (hg : t.Has g) : Makes t (.binary op f g) (add (.binary op f g) t) := by
  refine add_makes h (by simp) ?_ ?_
  · intro k hk
    refine (List.mem_cons.1 hk).imp_right fun hk => ?_
    exact (List.mem_append.1 hk).elim (h.wf.has_of_mem hf) (h.wf.has_of_mem hg)
  · intro k hk hbyText
    obtain ⟨k₁, k₂, rfl, hk₁, hk₂⟩ := byText_eq_binary_iff.1 hbyText
    rw [h.wf.eq_of_byText_eq hf (h.wf.binary hk).1 hk₁,
      h.wf.eq_of_byText_eq hg (h.wf.binary hk).2 hk₂]

theorem intern_unary_eq (op : UnaryOp) (f : Formula) (t : Table) :
    intern (.unary op f) t =
      if .unary op f ∈ t.compounds then (.unary op f, t)
      else add (.unary op (intern f t).1) (intern f t).2 := by
  rw [intern]
  simp only [bind, StateT.bind, get, getThe, MonadStateOf.get, StateT.get, pure]
  cases hf : t.compounds.get? (.unary op f) with
  | some g =>
    rw [if_pos (mem_of_get?_eq_some hf), ← eq_of_get?_eq_some hf]
    rfl
  | none =>
    rw [if_neg (not_mem_of_get?_eq_none hf)]
    rfl

theorem intern_binary_eq (op : BinaryOp) (f g : Formula) (t : Table) :
    intern (.binary op f g) t =
      if .binary op f g ∈ t.compounds then (.binary op f g, t)
      else add (.binary op (intern f t).1 (intern g (intern f t).2).1)
        (intern g (intern f t).2).2 := by
  rw [intern]
  simp only [bind, StateT.bind, get, getThe, MonadStateOf.get, StateT.get, pure]
  cases hf : t.compounds.get? (.binary op f g) with
  | some k =>
    rw [if_pos (mem_of_get?_eq_some hf), ← eq_of_get?_eq_some hf]
    rfl
  | none =>
    rw [if_neg (not_mem_of_get?_eq_none hf)]
    rfl

theorem intern_makes (h : t.Sound) (f : Formula) : Makes t f (intern f t) := by
  induction f generalizing t with
  | atom e => exact atom_makes h e
  | unary op f ih =>
    rw [intern_unary_eq]
    split
    · rename_i hmem
      exact h.makes hmem
    · have hf := ih h
      have hadd := add_unary_makes hf.adds.sound op hf.has
      exact (hadd.congr (by simp only [byText, hf.byText_eq])).after
        (hf.adds.mono (keys_subset_unary op f))
  | binary op f g ihf ihg =>
    rw [intern_binary_eq]
    split
    · rename_i hmem
      exact h.makes hmem
    · have hf := ihf h
      have hg := ihg hf.adds.sound
      have hadd := add_binary_makes hg.adds.sound op (hg.adds.keeps _ hf.has) hg.has
      have hcongr := hadd.congr (g := .binary op f g) (by
        simp only [byText, hf.byText_eq, hg.byText_eq])
      exact hcongr.after
        ((hf.adds.mono (keys_subset_left op f g)).trans (hg.adds.mono (keys_subset_right op f g)))

/-- The normal forms that are known are in the table. -/
def Kept (known : Normals) (t : Table) : Prop :=
  ∀ k ∈ known, t.Has (k.1.normalise k.2)

/-- In a table that holds all of another one, a formula is made out of formulas of a set. -/
def Builds (K : Finset Formula) (t : Table) {f : Formula} (x : NormalM (Copy f)) : Prop :=
  ∀ t' known, t'.Sound → t.Keeps t' → Kept known t' →
    Adds K t' (x known t').2 ∧ (x known t').2.Has f ∧ Kept (x known t').1.2 (x known t').2

theorem Builds.mono {f : Formula} {x : NormalM (Copy f)} (h : Builds K t x) (hsub : K ⊆ L) :
    Builds L t x := by
  intro t' known hsound hkeeps hkept
  obtain ⟨hadds, hrest⟩ := h t' known hsound hkeeps hkept
  exact ⟨hadds.mono hsub, hrest⟩

theorem builds_pure {f : Formula} (hf : t.Has f) (p : Copy f) :
    Builds K t (pure p : NormalM (Copy f)) :=
  fun _ _ hsound hkeeps hkept => ⟨hsound.adds_self K, hkeeps f hf, hkept⟩

theorem Builds.bind {f g : Formula} {x : NormalM (Copy f)} {k : Copy f → NormalM (Copy g)}
    (hx : Builds K t x) (hk : ∀ p t', t.Keeps t' → t'.Has f → Builds K t' (k p)) :
    Builds K t (x >>= k) := by
  intro t' known hsound hkeeps hkept
  obtain ⟨hadds, hf, hkept⟩ := hx t' known hsound hkeeps hkept
  have hkeeps' : t.Keeps (x known t').2 := fun f hf => hadds.keeps f (hkeeps f hf)
  obtain ⟨hadds', hg, hkept'⟩ := hk (x known t').1.1 _ hkeeps' hf (x known t').2 (x known t').1.2
    hadds.sound (fun _ hf => hf) hkept
  exact ⟨hadds.trans hadds', hg, hkept'⟩

theorem Kept.keeps {known : Normals} (h : Kept known t) (hkeeps : t.Keeps t') : Kept known t' :=
  fun k hk => hkeeps _ (h k hk)

theorem share_builds {f g : Formula} (h : g = f)
    (hmakes : ∀ t', t'.Sound → t.Keeps t' → Makes t' g (add g t')) :
    Builds f.keys t (share g h) := by
  subst h
  intro t' known hsound hkeeps hkept
  have hg := hmakes t' hsound hkeeps
  refine ⟨hg.adds, ?_, hkept.keeps hg.adds.keeps⟩
  have hhas := hg.has
  rwa [add_fst] at hhas

theorem share_unary_builds {f g : Formula} {op : UnaryOp} {p : Copy g} (h : .unary op p.1 = f)
    (hg : t.Has g) : Builds f.keys t (share (.unary op p.1) h) := by
  refine share_builds h fun _ hsound hkeeps => add_unary_makes hsound op ?_
  rw [p.2]
  exact hkeeps g hg

theorem share_binary_builds {f g₁ g₂ : Formula} {op : BinaryOp} {p : Copy g₁} {q : Copy g₂}
    (h : .binary op p.1 q.1 = f) (h₁ : t.Has g₁) (h₂ : t.Has g₂) :
    Builds f.keys t (share (.binary op p.1 q.1) h) := by
  refine share_builds h fun _ hsound hkeeps => add_binary_makes hsound op ?_ ?_
  · rw [p.2]
    exact hkeeps g₁ h₁
  · rw [q.2]
    exact hkeeps g₂ h₂

theorem shareNegated_builds {f : Formula} {negated : Bool} {p : Copy f} (hf : t.Has f) :
    Builds (f.negateIf negated).keys t (shareNegated negated p) := by
  cases negated with
  | false => exact builds_pure hf p
  | true => exact share_unary_builds (by rw [p.2]; rfl) hf

theorem share_pair_builds {f g₁ g₂ : Formula} {op : BinaryOp} {x : NormalM (Copy g₁)}
    {y : NormalM (Copy g₂)} (h : ∀ (p : Copy g₁) (q : Copy g₂), .binary op p.1 q.1 = f)
    (hx : Builds g₁.keys t x) (hy : ∀ t', t.Keeps t' → Builds g₂.keys t' y) :
    Builds f.keys t (do
      let p ← x
      let q ← y
      share (.binary op p.1 q.1) (h p q)) := by
  have hf : .binary op g₁ g₂ = f := h ⟨g₁, rfl⟩ ⟨g₂, rfl⟩
  refine (hx.mono ?_).bind fun p t₁ h₁ hp => ?_
  · rw [← hf]
    exact keys_subset_left op g₁ g₂
  refine ((hy t₁ h₁).mono ?_).bind fun q t₂ h₂ hq => share_binary_builds _ (h₂ g₁ hp) hq
  rw [← hf]
  exact keys_subset_right op g₁ g₂

theorem once_of_some {f : Formula} {negated : Bool} {x : NormalM (Copy (f.normalise negated))}
    {known : Normals} {g : Copy (f.normalise negated)} (h : known.get? (f, negated) = some g) :
    once f negated x known t = ((g, known), t) := by
  have hget : (get : NormalM Normals) known t = ((known, known), t) := rfl
  simp only [once, bind, StateT.bind, hget, h]
  rfl

theorem once_of_none {f : Formula} {negated : Bool} {x : NormalM (Copy (f.normalise negated))}
    {known : Normals} (h : known.get? (f, negated) = none) :
    once f negated x known t =
      (((x known t).1.1, (x known t).1.2.insert (f, negated) (x known t).1.1), (x known t).2) := by
  have hget : (get : NormalM Normals) known t = ((known, known), t) := rfl
  simp only [once, bind, StateT.bind, hget, h]
  rfl

theorem once_builds {f : Formula} {negated : Bool} {x : NormalM (Copy (f.normalise negated))}
    (hx : Builds K t x) : Builds K t (once f negated x) := by
  intro t' known hsound hkeeps hkept
  cases hknown : known.get? (f, negated) with
  | some g =>
    rw [once_of_some hknown]
    have hmem : (f, negated) ∈ known := by
      rw [Std.DHashMap.mem_iff_contains, Std.DHashMap.contains_eq_isSome_get?, hknown]
      rfl
    exact ⟨hsound.adds_self K, hkept _ hmem, hkept⟩
  | none =>
    obtain ⟨hadds, hf, hkept'⟩ := hx t' known hsound hkeeps hkept
    rw [once_of_none hknown]
    refine ⟨hadds, hf, fun k hk => ?_⟩
    rw [Std.DHashMap.mem_insert, beq_iff_eq] at hk
    obtain rfl | hk := hk
    · exact hf
    · exact hkept' k hk

theorem normalise_builds {f : Formula} (negated : Bool) (h : ∀ g ∈ f.preorder, t.Has g) :
    Builds (f.normalise negated).keys t (normalise negated f) := by
  -- All that is made on the way is part of the normal form, so that every step adds to one set.
  induction f generalizing t negated with
  | atom e => exact shareNegated_builds (h _ (mem_preorder_self _))
  | unary op f ih =>
    have hf : ∀ g ∈ f.preorder, t.Has g := fun g hg => h g (by simp [preorder, hg])
    rw [normalise]
    apply once_builds
    split
    · rename_i hrule
      have heq : (unary op f).normalise negated = f.normalise (!negated) := by
        simp only [Formula.normalise, hrule]
      refine ((ih (!negated) hf).mono ?_).bind fun p t₁ hkeeps hp => builds_pure ?_ _
      · rw [heq]
      · rwa [heq]
    · rename_i op' hrule
      have heq : (unary op f).normalise negated =
          unary (if negated then op' else op) (f.normalise negated) := by
        simp only [Formula.normalise, hrule]
      refine ((ih negated hf).mono ?_).bind fun p t₁ hkeeps hp => share_unary_builds _ hp
      rw [heq]
      exact keys_subset_unary _ _
    · rename_i hrule
      have heq : (unary op f).normalise negated =
          negateIf negated (unary op (f.normalise false)) := by
        simp only [Formula.normalise, hrule]
      have hsub := keys_subset_negateIf negated (unary op (f.normalise false))
      rw [← heq] at hsub
      refine ((ih false hf).mono ((keys_subset_unary _ _).trans hsub)).bind fun p t₁ hkeeps hp => ?_
      refine ((share_unary_builds _ hp).mono hsub).bind fun q t₂ hkeeps hq => ?_
      refine ((shareNegated_builds hq).mono ?_).bind fun r t₃ hkeeps hr => builds_pure ?_ _
      · rw [heq]
      · rwa [heq]
  | binary op f g ihf ihg =>
    have hf : ∀ k ∈ f.preorder, t.Has k := fun k hk => h k (by simp [preorder, hk])
    have hg : ∀ k ∈ g.preorder, t.Has k := fun k hk => h k (by simp [preorder, hk])
    rw [normalise]
    apply once_builds
    split
    · exact share_pair_builds _ (ihf negated hf) fun t₁ h₁ => ihg negated fun k hk => h₁ k (hg k hk)
    · exact share_pair_builds _ (ihf (!negated) hf) fun t₁ h₁ =>
        ihg negated fun k hk => h₁ k (hg k hk)
    · rename_i different hrule
      have heq : (binary op f g).normalise negated =
          eitherPair (f.normalise false) (g.normalise (negated != different))
            (f.normalise true) (g.normalise (negated == different)) := by
        simp only [Formula.normalise, hrule]
      have hboth := keys_subset_left .or
        (binary .and (f.normalise false) (g.normalise (negated != different)))
        (binary .and (f.normalise true) (g.normalise (negated == different)))
      have hneither := keys_subset_right .or
        (binary .and (f.normalise false) (g.normalise (negated != different)))
        (binary .and (f.normalise true) (g.normalise (negated == different)))
      rw [← eitherPair, ← heq] at hboth hneither
      refine ((ihf false hf).mono ((keys_subset_left _ _ _).trans hboth)).bind fun p t₁ h₁ hp => ?_
      refine ((ihg _ fun k hk => h₁ k (hg k hk)).mono
        ((keys_subset_right _ _ _).trans hboth)).bind fun q t₂ h₂ hq => ?_
      refine ((ihf true fun k hk => h₂ k (h₁ k (hf k hk))).mono
        ((keys_subset_left _ _ _).trans hneither)).bind fun p' t₃ h₃ hp' => ?_
      refine ((ihg _ fun k hk => h₃ k (h₂ k (h₁ k (hg k hk)))).mono
        ((keys_subset_right _ _ _).trans hneither)).bind fun q' t₄ h₄ hq' => ?_
      refine ((share_binary_builds _ (h₄ _ (h₃ _ (h₂ _ hp))) (h₄ _ (h₃ _ hq))).mono ?_).bind
        fun both t₅ h₅ hboth' => ?_
      · rw [p.2, q.2]
        exact hboth
      refine ((share_binary_builds _ (h₅ _ (h₄ _ hp')) (h₅ _ hq')).mono ?_).bind
        fun neither t₆ h₆ hneither' => share_binary_builds _ (h₆ _ hboth') hneither'
      rw [p'.2, q'.2]
      exact hneither
    · rename_i hrule
      have heq : (binary op f g).normalise negated =
          negateIf negated (binary op (f.normalise false) (g.normalise false)) := by
        simp only [Formula.normalise, hrule]
      have hsub := keys_subset_negateIf negated (binary op (f.normalise false) (g.normalise false))
      rw [← heq] at hsub
      refine ((ihf false hf).mono ((keys_subset_left _ _ _).trans hsub)).bind fun p t₁ h₁ hp => ?_
      refine ((ihg false fun k hk => h₁ k (hg k hk)).mono
        ((keys_subset_right _ _ _).trans hsub)).bind fun q t₂ h₂ hq => ?_
      refine ((share_binary_builds _ (h₂ _ hp) hq).mono hsub).bind fun r t₃ h₃ hr => ?_
      refine ((shareNegated_builds hr).mono ?_).bind fun s t₄ h₄ hs => builds_pure ?_ _
      · rw [heq]
      · rwa [heq]

theorem normalise_makes (h : t.Sound) {f : Formula} (hf : t.Has f) (negated : Bool) :
    Makes t (f.normalise negated)
      ((normalise negated f {} t).1.1.1, (normalise negated f {} t).2) := by
  obtain ⟨hadds, hhas, -⟩ := normalise_builds negated (fun g hg => h.wf.has_of_mem hf hg) t {} h
    (fun _ hg => hg) (fun k hk => absurd hk Std.DHashMap.not_mem_emptyWithCapacity)
  rw [(normalise negated f {} t).1.1.2]
  exact ⟨hadds, hhas, rfl⟩

theorem normal_makes (h : t.Sound) {f : Formula} (hf : t.Has f) : Makes t f.normal (normal f t) :=
  normalise_makes h hf false

theorem negation_makes (h : t.Sound) {f : Formula} (hf : t.Has f) :
    Makes t f.negation (negation f t) :=
  normalise_makes h hf true

end Table

end Lasso
