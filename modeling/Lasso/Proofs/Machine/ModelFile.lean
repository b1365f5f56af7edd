import Lasso.Proofs.Machine.Declarations
import Lasso.Proofs.Machine.Locality

/-! # What a model file says

A model file says that every constraint in it holds: the initial ones at the first time, those on
states at every time and those on transitions at every time but the last.  The expression of a path
says the same, and the order of the declarations does not matter.
-/

namespace Lasso

set_option autoImplicit false

namespace Model

open Encoding SExpr

/-- All constraints of a file hold on a timeline up to some time. -/
structure Asserts {α : Type} (ts : List (SExpr α)) (σ : Timeline) (last : Nat) : Prop where
  init : ∀ x ∈ declared "init" ts, σ.meaning 0 x = true
  invar : ∀ x ∈ declared "invar" ts, ∀ n ≤ last, σ.meaning n x = true
  trans : ∀ x ∈ declared "trans" ts, ∀ n < last, σ.meaning n x = true

theorem isPath_iff_asserts {s : Source} {table : Table} {M : Model} {ts : List Term}
    (h : (read s table).1 = .ok M) (hts : s.terms = .ok ts) {w : Nat → Letter} {σ : Timeline}
    (hw : M.encoding.Spells w σ) (last : Nat) :
    M.machine.IsPath M.encoding w last ↔ Asserts ts σ last := by
  have hover := (wellFormed_of_read h).machine
  have hholds : ∀ (c : Constraint) (n : Nat),
      M.encoding.holds (c.part M.machine) (w n) (w (n + 1)) = true ↔
        ∀ x ∈ declared c.keyword ts, σ.meaning n x = true := by
    intro c n
    rw [holds_part_of_read h hts c hw n, List.all_eq_true]
  have hinit : M.machine.Initial M.encoding (w 0) ↔
      ∀ x ∈ declared "init" ts, σ.meaning 0 x = true := by
    rw [Machine.Initial, ← hover.init.holds_eq (w 0) (w 1)]
    exact hholds .init 0
  have hinvar : ∀ n, M.machine.Allowed M.encoding (w n) ↔
      ∀ x ∈ declared "invar" ts, σ.meaning n x = true := by
    intro n
    rw [Machine.Allowed, ← hover.invar.holds_eq (w n) (w (n + 1))]
    exact hholds .invar n
  have htrans : ∀ n, M.machine.Moves M.encoding (w n) (w (n + 1)) ↔
      ∀ x ∈ declared "trans" ts, σ.meaning n x = true := by
    intro n
    exact hholds .trans n
  simp only [Machine.IsPath, hinit, hinvar, htrans]
  constructor
  · rintro ⟨h₀, h₁, h₂⟩
    exact ⟨h₀, fun x hx n hn => h₁ n hn x hx, fun x hx n hn => h₂ n hn x hx⟩
  · rintro ⟨h₀, h₁, h₂⟩
    exact ⟨h₀, fun n hn x hx => h₁ x hx n hn, fun n hn x hx => h₂ x hx n hn⟩

theorem declared?_erase {α : Type} (keyword : String) (t : SExpr α) :
    declared? keyword t.erase = (declared? keyword t).map erase := by
  match t with
  | .symbol _ _ => rfl
  | .list _ [] => rfl
  | .list _ [a] => cases a <;> rfl
  | .list _ [.list _ _, x] => rfl
  | .list _ (a :: x :: y :: rest) => cases a <;> rfl
  | .list _ [.symbol _ name, x] =>
    change (if name = keyword then some x.erase else none) =
      (if name = keyword then some x else none).map erase
    split <;> rfl

theorem declared_map_erase {α : Type} (keyword : String) (ts : List (SExpr α)) :
    declared keyword (ts.map erase) = (declared keyword ts).map erase := by
  simp only [declared, List.filterMap_map, List.map_filterMap, Function.comp_def, declared?_erase]

theorem asserts_map_erase_iff {α : Type} {ts : List (SExpr α)} {σ : Timeline} {last : Nat} :
    Asserts (ts.map erase) σ last ↔ Asserts ts σ last := by
  have hforall : ∀ (keyword : String) (P : SExpr Unit → Prop),
      (∀ x ∈ declared keyword (ts.map erase), P x) ↔ ∀ x ∈ declared keyword ts, P x.erase := by
    intro keyword P
    rw [declared_map_erase, List.forall_mem_map]
  constructor
  · rintro ⟨hinit, hinvar, htrans⟩
    rw [hforall] at hinit hinvar htrans
    simp only [Timeline.meaning_erase] at hinit hinvar htrans
    exact ⟨hinit, hinvar, htrans⟩
  · rintro ⟨hinit, hinvar, htrans⟩
    constructor
    all_goals
      rw [hforall]
      simp only [Timeline.meaning_erase]
      assumption

/-- What a file asserts does not depend on the order of its declarations. -/
theorem asserts_iff_of_perm {α β : Type} {ts : List (SExpr α)} {ts' : List (SExpr β)}
    (h : (ts'.map erase).Perm (ts.map erase)) {σ : Timeline} {last : Nat} :
    Asserts ts' σ last ↔ Asserts ts σ last := by
  have hmem : ∀ keyword x, x ∈ declared keyword (ts'.map erase) ↔
      x ∈ declared keyword (ts.map erase) := fun keyword x => (h.filterMap _).mem_iff
  refine asserts_map_erase_iff.symm.trans (Iff.trans ?_ asserts_map_erase_iff)
  constructor
  · rintro ⟨hinit, hinvar, htrans⟩
    exact ⟨fun x hx => hinit x ((hmem _ x).2 hx), fun x hx => hinvar x ((hmem _ x).2 hx),
      fun x hx => htrans x ((hmem _ x).2 hx)⟩
  · rintro ⟨hinit, hinvar, htrans⟩
    exact ⟨fun x hx => hinit x ((hmem _ x).1 hx), fun x hx => hinvar x ((hmem _ x).1 hx),
      fun x hx => htrans x ((hmem _ x).1 hx)⟩

/-- The values of the variables by time that are those of their names. -/
def spelling (e : Encoding) (σ : Timeline) (n : Nat) : Letter := fun i => σ n (e.nameOfIndex i)

theorem spells_spelling {e : Encoding} (wf : e.WellFormed) (σ : Timeline) :
    e.Spells (spelling e σ) σ := by
  intro name x hx t
  obtain ⟨hindex, hname⟩ := vars_index_of_lookup? wf hx
  simp only [spelling, nameOfIndex, hindex, Option.map_some, Option.getD_some, hname]

/-- The values of a timeline for the declared variables, and those of an assignment for all else. -/
def timelineView (e e' : Encoding) (ρ : Assignment) (σ : Timeline) : View
  | .timed i t => (e.vars[i]?.map fun x => σ t.toNat x.name).getD (e'.viewOf ρ (.timed i t))
  | .current i => e'.viewOf ρ (.current i)
  | .next i => e'.viewOf ρ (.next i)

/-- An assignment that gives the timed variables the values of their names shows a view that does
so up to any time. -/
theorem exists_view {e e' : Encoding} (wf : e.WellFormed) (wf' : e'.WellFormed) {ρ : Assignment}
    {σ : Timeline} (last : UInt64)
    (hσ : ∀ x ∈ e.vars, ∀ (t : UInt64) (l : Lit), e'.timeline[(x.index, t)]? = some l →
      ρ l.var = σ t.toNat x.name) :
    ∃ V : View, e'.Agrees ρ V ∧
      ∀ n ≤ last.toNat, e.SameValues (spelling e σ n) (V.word n) := by
  refine ⟨timelineView e e' ρ σ, fun v o ho => ?_, fun n hn i hi => ?_⟩
  · cases o with
    | current i => exact wf'.agrees_viewOf ρ v _ ho
    | next i => exact wf'.agrees_viewOf ρ v _ ho
    | timed i t =>
      cases hx : e.vars[i]? with
      | none =>
        simp only [timelineView, hx, Option.map_none, Option.getD_none]
        exact wf'.agrees_viewOf ρ v _ ho
      | some x =>
        have hl := (wf'.timeline i t (.pos v)).2 ⟨rfl, ho⟩
        rw [← wf.index i x hx] at hl
        simp only [timelineView, hx, Option.map_some, Option.getD_some]
        exact hσ x (Array.mem_of_getElem? hx) t _ hl
  · have hx : e.vars[i]? = some e.vars[i] := Array.getElem?_eq_getElem hi
    have hnat : (UInt64.ofNat n).toNat = n :=
      UInt64.toNat_ofNat_of_lt' (Nat.lt_of_le_of_lt hn last.toNat_lt)
    simp only [spelling, nameOfIndex, View.word, View.letter, timelineView, hx,
      Option.map_some, Option.getD_some, hnat]

/-- A path of a model that was read is where all constraints of the file hold, on whatever encoding
it is made and in whatever order they stand. -/
theorem path_iff_file_asserts {s : Source} {table : Table} {M : Model} {ts : List Term}
    (h : (read s table).1 = .ok M) (hts : s.terms = .ok ts) {e : Encoding}
    (hle : M.encoding ≤ e) (wf : e.WellFormed) (last : UInt64) {ρ : Assignment} {σ : Timeline}
    (hσ : ∀ x ∈ M.encoding.vars, ∀ (t : UInt64) (l : Lit),
      (M.machine.path last e).2.timeline[(x.index, t)]? = some l → ρ l.var = σ t.toNat x.name) :
    ((M.machine.path last e).2.graph.eval ρ (M.machine.path last e).1 = true ↔
      Asserts ts σ last.toNat) ∧
    ∀ ts' : List Term, (ts'.map erase).Perm (ts.map erase) →
      (Asserts ts' σ last.toNat ↔ Asserts ts σ last.toNat) := by
  obtain ⟨wfM, hover⟩ := wellFormed_of_read h
  have hpath := Machine.path_builds wf (hover.of_le wfM hle) last
  obtain ⟨V, hV, hword⟩ := exists_view wfM hpath.wf last hσ
  refine ⟨?_, fun ts' hperm => asserts_iff_of_perm hperm⟩
  rw [hpath.denotes.eval ρ V hV, decide_eq_true_iff, hover.isPath_iff wfM hle,
    ← Machine.isPath_congr wfM hword, isPath_iff_asserts h hts (spells_spelling wfM σ)]

def latch : Source := .ofString "latch" "(init a) (var a) (trans (next a))"

def latchTerms : List Term :=
  [.list ⟨0, 8⟩ [.symbol ⟨1, 5⟩ "init", .symbol ⟨6, 7⟩ "a"],
    .list ⟨9, 16⟩ [.symbol ⟨10, 13⟩ "var", .symbol ⟨14, 15⟩ "a"],
    .list ⟨17, 33⟩ [.symbol ⟨18, 23⟩ "trans",
      .list ⟨24, 32⟩ [.symbol ⟨25, 29⟩ "next", .symbol ⟨30, 31⟩ "a"]]]

theorem terms_latch : latch.terms = .ok latchTerms := by cbv

theorem readConstraint_errors (span : Span) (keyword : String) (a : Term) {t : Term} {p : Bool}
    {add : Machine → Lit → StateM Encoding Machine} {r : Reading} {l : Lit}
    (h : ((condition p t).run r.encoding).1 = .ok l) :
    (readConstraint span keyword [a, t] p add r).2.errors = r.errors := by
  rw [readConstraint, bind_apply, readCondition_eq]
  cases hr : (condition p t).run r.encoding with
  | mk result e =>
    rw [hr] at h
    cases h
    rfl

def latchVariable : Variable := ⟨"a", 0, .pos 2, .state (.pos 3)⟩

theorem exists_read_latch :
    ∃ M, (read latch ∅).1 = .ok M ∧ M.encoding.vars = #[latchVariable] := by
  let r := ((latchTerms.take 2).forM readDeclaration
    (latchTerms.forM readVariables { table := ∅ }).2).2
  have wf : r.WellFormed := Keeps.forM readDeclaration_keeps _ _
    (Keeps.forM readVariables_keeps latchTerms _ (wellFormed_start ∅))
  have hname : r.encoding.conditionName? "a" = some latchVariable.current := rfl
  obtain ⟨l, hl⟩ := exists_condition_next wf.encoding hname rfl rfl
    (⟨24, 32⟩ : Span) ⟨25, 29⟩ ⟨30, 31⟩
  have herrors : (readTerms latchTerms { table := ∅ }).2.errors = #[] :=
    readConstraint_errors ⟨17, 33⟩ "trans" (.symbol ⟨18, 23⟩ "trans") hl
  have hvars := (says_readDeclaration (.list ⟨17, 33⟩ [.symbol ⟨18, 23⟩ "trans",
    .list ⟨24, 32⟩ [.symbol ⟨25, 29⟩ "next", .symbol ⟨30, 31⟩ "a"]]) r wf herrors).vars
  rw [read_eq terms_latch, herrors]
  exact ⟨_, rfl, hvars⟩

/-- The variable is true at all times or the path is none. -/
theorem path_iff_file_asserts_latch : ∃ M, (read latch ∅).1 = .ok M ∧
    (M.machine.path 3 M.encoding).2.graph.eval (fun _ => true)
      (M.machine.path 3 M.encoding).1 = true ∧
    (M.machine.path 3 M.encoding).2.graph.eval (fun _ => false)
      (M.machine.path 3 M.encoding).1 = false := by
  obtain ⟨M, hM, -⟩ := exists_read_latch
  have hpath : ∀ b : Bool, (M.machine.path 3 M.encoding).2.graph.eval (fun _ => b)
      (M.machine.path 3 M.encoding).1 = true ↔ Asserts latchTerms (fun _ _ => b) 3 := fun b =>
    (path_iff_file_asserts hM terms_latch (le_refl _) (wellFormed_of_read hM).encoding 3
      fun _ _ _ _ _ => rfl).1
  have hinit : declared "init" latchTerms = [.symbol ⟨6, 7⟩ "a"] := rfl
  have hinvar : declared "invar" latchTerms = [] := rfl
  refine ⟨M, hM, (hpath true).2 ?_, Bool.eq_false_iff.2 fun h => ?_⟩
  · constructor
    · intro x hx
      obtain rfl := List.mem_singleton.1 hx
      rfl
    · intro x hx
      rw [hinvar] at hx
      cases hx
    · intro x hx n _
      obtain rfl := List.mem_singleton.1 hx
      rfl
  · have hfalse := ((hpath false).1 h).init (.symbol ⟨6, 7⟩ "a") (by rw [hinit]; simp)
    cases hfalse

end Model

end Lasso
