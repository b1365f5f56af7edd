import Lasso.Proofs.Formula.Nodes

/-! # Normal forms of nodes

The normal form of a node is made by walking over the nodes, and no node is normalised twice.  What
is known of a node holds for its number, whichever operands it has.
-/

namespace Lasso

set_option autoImplicit false

namespace Formula

theorem byText_negateIf (negated : Bool) (f : Formula) :
    (f.negateIf negated).byText = f.byText.negateIf negated := by
  cases negated <;> rfl

theorem byText_normalise (negated : Bool) (f : Formula) :
    (f.normalise negated).byText = f.byText.normalise negated := by
  induction f generalizing negated with
  | atom e => exact byText_negateIf negated _
  | unary op f ih =>
    rw [byText, Formula.normalise, Formula.normalise]
    cases op.rule with
    | negation => exact ih (!negated)
    | dual op' => simp only [byText, ih]
    | kept => simp only [byText_negateIf, byText, ih]
  | binary op f g ihf ihg =>
    rw [byText, Formula.normalise, Formula.normalise]
    cases op.rule with
    | dual op' => simp only [byText, ihf, ihg]
    | implication => simp only [byText, ihf, ihg]
    | comparison different => simp only [eitherPair, byText, ihf, ihg]
    | kept => simp only [byText_negateIf, byText, ihf, ihg]

end Formula

open Formula

namespace NodeTable

/-- The normal forms that are known, of nodes and of their negations. -/
abbrev Normals := Std.HashMap (Nat × Bool) Nat

abbrev NormalM := StateT Normals (StateM NodeTable)

def addNegated (negated : Bool) (n : Nat) : NormalM Nat :=
  if negated then add (.unary .not n) else return n

def addUnary (op : UnaryOp) (arg : NormalM Nat) : NormalM Nat := do
  add (.unary op (← arg))

def addBinary (op : BinaryOp) (left right : NormalM Nat) : NormalM Nat := do
  let k ← left
  let l ← right
  add (.binary op k l)

/-- The normal form that is known for a node or its negation, or else made for it. -/
def once (n : Nat) (negated : Bool) (make : NormalM Nat) : NormalM Nat := do
  match (← get)[(n, negated)]? with
  | some k => return k
  | none =>
    let k ← make
    modify (·.insert (n, negated) k)
    return k

def look (n : Nat) : NormalM (Option (Shape Expr)) := do
  return (← getThe NodeTable).shape? n

/-- Makes the normal form of a node, or of its negation. -/
def normalise (negated : Bool) (n : Nat) : NormalM Nat :=
  once n negated do
    match ← look n with
    | none => return n
    | some (.atom _) => addNegated negated n
    | some (.unary op k) =>
      if _ : k < n then
        match op.rule with
        | .negation => normalise (!negated) k
        | .dual op' => addUnary (if negated then op' else op) (normalise negated k)
        | .kept => addUnary op (normalise false k) >>= addNegated negated
      else return n
    | some (.binary op k l) =>
      if _ : k < n ∧ l < n then
        match op.rule with
        | .dual op' =>
          addBinary (if negated then op' else op) (normalise negated k) (normalise negated l)
        | .implication =>
          addBinary (if negated then .and else .or) (normalise (!negated) k) (normalise negated l)
        | .comparison different =>
          addBinary .or
            (addBinary .and (normalise false k) (normalise (negated != different) l))
            (addBinary .and (normalise true k) (normalise (negated == different) l))
        | .kept => addBinary op (normalise false k) (normalise false l) >>= addNegated negated
      else return n
termination_by n

def normal (n : Nat) : StateM NodeTable Nat := (normalise false n).run' {}

def negation (n : Nat) : StateM NodeTable Nat := (normalise true n).run' {}

variable {s s' : NodeTable} {n m : Nat} {f g : Formula} {K L : Finset Formula}

/-- The normal forms that are known have nodes. -/
def Known (known : Normals) (s : NodeTable) : Prop :=
  ∀ n negated m, known[(n, negated)]? = some m →
    ∃ f, s.Writes n f ∧ s.Writes m (f.normalise negated)

theorem Known.keeps {known : Normals} (h : Known known s) (hs : s.Keeps s') : Known known s' := by
  intro n negated m hm
  obtain ⟨f, hn, hm⟩ := h n negated m hm
  exact ⟨f, hn.keeps hs, hm.keeps hs⟩

/-- In a table with all the nodes of another one, a formula is made out of formulas of a set. -/
def Builds (K : Finset Formula) (s : NodeTable) (f : Formula) (x : NormalM Nat) : Prop :=
  ∀ s' known, s'.Sound → s.Keeps s' → Known known s' →
    Adds K s' (x known s').2 ∧ (x known s').2.Writes (x known s').1.1 f ∧
      Known (x known s').1.2 (x known s').2

theorem Builds.mono {x : NormalM Nat} (h : Builds K s f x) (hsub : K ⊆ L) : Builds L s f x := by
  intro s' known hsound hkeeps hknown
  obtain ⟨hadds, hrest⟩ := h s' known hsound hkeeps hknown
  exact ⟨hadds.mono hsub, hrest⟩

theorem Builds.later {x : NormalM Nat} (h : Builds K s f x) (hs : s.Keeps s') : Builds K s' f x :=
  fun s'' known hsound hkeeps => h s'' known hsound (hs.trans hkeeps)

theorem builds_pure (h : s.Writes n f) : Builds K s f (pure n) :=
  fun _ _ hsound hkeeps hknown => ⟨hsound.adds_self K, h.keeps hkeeps, hknown⟩

theorem Builds.bind {x : NormalM Nat} {k : Nat → NormalM Nat} (hx : Builds K s f x)
    (hk : ∀ n s', s.Keeps s' → s'.Writes n f → Builds K s' g (k n)) :
    Builds K s g (x >>= k) := by
  intro s' known hsound hkeeps hknown
  obtain ⟨hadds, hwrites, hknown⟩ := hx s' known hsound hkeeps hknown
  obtain ⟨hadds', hrest⟩ := hk _ _ (hkeeps.trans hadds.keeps) hwrites _ _ hadds.sound
    (.refl _) hknown
  exact ⟨hadds.trans hadds', hrest⟩

theorem builds_of_makes {c : Shape Expr}
    (h : ∀ s', s'.Sound → s.Keeps s' → Makes s' f (add c s')) :
    Builds f.keys s f (StateT.lift (add c)) := by
  intro s' known hsound hkeeps hknown
  have hmakes := h s' hsound hkeeps
  exact ⟨hmakes.adds, hmakes.writes, hknown.keeps hmakes.adds.keeps⟩

theorem addNegated_builds (negated : Bool) (h : s.Writes n f) :
    Builds (f.negateIf negated).keys s (f.negateIf negated) (addNegated negated n) := by
  cases negated with
  | false => exact builds_pure h
  | true => exact builds_of_makes fun _ hsound hkeeps =>
      add_unary_makes hsound .not (h.keeps hkeeps)

theorem addUnary_builds {x : NormalM Nat} (op : UnaryOp) (hx : Builds f.keys s f x) :
    Builds (unary op f).keys s (.unary op f) (addUnary op x) :=
  (hx.mono (keys_subset_unary op f)).bind fun _ _ _ hf =>
    builds_of_makes fun _ hsound hkeeps => add_unary_makes hsound op (hf.keeps hkeeps)

theorem addBinary_builds {x y : NormalM Nat} (op : BinaryOp) (hx : Builds f.keys s f x)
    (hy : Builds g.keys s g y) :
    Builds (binary op f g).keys s (.binary op f g) (addBinary op x y) := by
  refine (hx.mono (keys_subset_left op f g)).bind fun k s₁ h₁ hf => ?_
  refine ((hy.later h₁).mono (keys_subset_right op f g)).bind fun l s₂ h₂ hg => ?_
  exact builds_of_makes fun _ hsound hkeeps =>
    add_binary_makes hsound op (hf.keeps (h₂.trans hkeeps)) (hg.keeps hkeeps)

theorem Builds.negated {x : NormalM Nat} (negated : Bool) (hx : Builds f.keys s f x) :
    Builds (f.negateIf negated).keys s (f.negateIf negated) (x >>= addNegated negated) :=
  (hx.mono (keys_subset_negateIf negated f)).bind fun _ _ _ hf => addNegated_builds negated hf

theorem once_of_some {negated : Bool} {x : NormalM Nat} {known : Normals} {k : Nat}
    (h : known[(n, negated)]? = some k) : once n negated x known s = ((k, known), s) := by
  have hget : (get : NormalM Normals) known s = ((known, known), s) := rfl
  simp only [once, bind, StateT.bind, hget, h]
  rfl

theorem once_of_none {negated : Bool} {x : NormalM Nat} {known : Normals}
    (h : known[(n, negated)]? = none) : once n negated x known s =
      (((x known s).1.1, (x known s).1.2.insert (n, negated) (x known s).1.1), (x known s).2) := by
  have hget : (get : NormalM Normals) known s = ((known, known), s) := rfl
  simp only [once, bind, StateT.bind, hget, h]
  rfl

theorem once_builds {negated : Bool} {x : NormalM Nat} (hn : s.Writes n f)
    (hx : Builds (f.normalise negated).keys s (f.normalise negated) x) :
    Builds (f.normalise negated).keys s (f.normalise negated) (once n negated x) := by
  intro s' known hsound hkeeps hknown
  cases hfind : known[(n, negated)]? with
  | some k =>
    rw [once_of_some hfind]
    obtain ⟨g, hg, hk⟩ := hknown n negated k hfind
    have htext : (g.normalise negated).byText = (f.normalise negated).byText := by
      rw [byText_normalise, byText_normalise, hg.byText_eq (hn.keeps hkeeps)]
    exact ⟨hsound.adds_self _, hk.congr htext, hknown⟩
  | none =>
    obtain ⟨hadds, hwrites, hknown'⟩ := hx s' known hsound hkeeps hknown
    rw [once_of_none hfind]
    refine ⟨hadds, hwrites, fun n' negated' m hm => ?_⟩
    rw [Std.HashMap.getElem?_insert] at hm
    split at hm
    · rename_i heq
      cases eq_of_beq heq
      cases hm
      exact ⟨f, hn.keeps (hkeeps.trans hadds.keeps), hwrites⟩
    · exact hknown' n' negated' m hm

theorem writes_atom {e : Expr} (h : s.Writes n (.atom e)) :
    ∃ e', s.shape? n = some (.atom e') := by
  obtain ⟨g, hg, htext⟩ := h
  obtain ⟨e', rfl, -⟩ := byText_eq_atom_iff.1 htext
  exact ⟨e', formula?_eq_some_atom_iff.1 hg⟩

theorem writes_unary {op : UnaryOp} (h : s.Writes n (.unary op f)) :
    ∃ k, k < n ∧ s.shape? n = some (.unary op k) ∧ s.Writes k f := by
  obtain ⟨p, hp, htext⟩ := h
  obtain ⟨g, rfl, hgf⟩ := byText_eq_unary_iff.1 htext
  obtain ⟨k, hk, hc, hg⟩ := formula?_eq_some_unary_iff.1 hp
  exact ⟨k, hk, hc, g, hg, hgf⟩

theorem writes_binary {op : BinaryOp} (h : s.Writes n (.binary op f g)) :
    ∃ k l, k < n ∧ l < n ∧ s.shape? n = some (.binary op k l) ∧ s.Writes k f ∧ s.Writes l g := by
  obtain ⟨p, hp, htext⟩ := h
  obtain ⟨p, q, rfl, hpf, hqg⟩ := byText_eq_binary_iff.1 htext
  obtain ⟨k, l, hk, hl, hc, hp, hq⟩ := formula?_eq_some_binary_iff.1 hp
  exact ⟨k, l, hk, hl, hc, ⟨p, hp, hpf⟩, q, hq, hqg⟩

/-- What is read of a node stays as the table grows. -/
theorem look_builds {c : Shape Expr} {k : Option (Shape Expr) → NormalM Nat}
    (hc : s.shape? n = some c) (hk : Builds K s f (k (some c))) :
    Builds K s f (look n >>= k) := by
  intro s' known hsound hkeeps hknown
  have hrun : (look n >>= k) known s' = k (s'.shape? n) known s' := rfl
  rw [hrun, hkeeps.shape? hc]
  exact hk s' known hsound hkeeps hknown

theorem normalise_builds (negated : Bool) (h : s.Writes n f) :
    Builds (f.normalise negated).keys s (f.normalise negated) (normalise negated n) := by
  induction f generalizing n negated with
  | atom e =>
    obtain ⟨e', hc⟩ := writes_atom h
    rw [normalise]
    exact once_builds h (look_builds hc (addNegated_builds negated h))
  | unary op f ih =>
    obtain ⟨k, hk, hc, hf⟩ := writes_unary h
    rw [normalise]
    refine once_builds h (look_builds hc ?_)
    simp only [dif_pos hk, Formula.normalise]
    cases op.rule with
    | negation => exact ih (!negated) hf
    | dual op' => exact addUnary_builds _ (ih negated hf)
    | kept => exact (addUnary_builds op (ih false hf)).negated negated
  | binary op f g ihf ihg =>
    obtain ⟨k, l, hk, hl, hc, hf, hg⟩ := writes_binary h
    rw [normalise]
    refine once_builds h (look_builds hc ?_)
    simp only [dif_pos (And.intro hk hl), Formula.normalise]
    cases op.rule with
    | dual op' => exact addBinary_builds _ (ihf negated hf) (ihg negated hg)
    | implication => exact addBinary_builds _ (ihf (!negated) hf) (ihg negated hg)
    | comparison different =>
      exact addBinary_builds .or (addBinary_builds .and (ihf false hf) (ihg _ hg))
        (addBinary_builds .and (ihf true hf) (ihg _ hg))
    | kept => exact (addBinary_builds op (ihf false hf) (ihg false hg)).negated negated

theorem normalise_makes (hs : s.Sound) (negated : Bool) (h : s.Writes n f) :
    Makes s (f.normalise negated) ((normalise negated n).run' {} s) := by
  have hknown : Known {} s := by
    intro n negated m hm
    simp at hm
  obtain ⟨hadds, hwrites, -⟩ := normalise_builds negated h s {} hs (.refl s) hknown
  exact ⟨hadds, hwrites⟩

theorem normal_makes (hs : s.Sound) (h : s.Writes n f) : Makes s f.normal (normal n s) :=
  normalise_makes hs false h

theorem negation_makes (hs : s.Sound) (h : s.Writes n f) : Makes s f.negation (negation n s) :=
  normalise_makes hs true h

end NodeTable

end Lasso
