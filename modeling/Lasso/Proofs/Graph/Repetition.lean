import Lasso.Proofs.Graph.Construction

/-! # Building an expression again

Gates are never added twice.  So a construction that is made once more, on the graph it led to or on
any that grew from it, returns the same expression and adds nothing.
-/

namespace Lasso

set_option autoImplicit false

namespace Graph

/-- Made again in any later graph, a construction returns what it returned in `g`. -/
def Repeats {α : Type} (c : StateM Graph α) (g : Graph) : Prop :=
  ∀ g' : Graph, g'.WellFormed → (c g).2 ≤ g' → c g' = ((c g).1, g')

theorem Repeats.pure {α : Type} (a : α) (g : Graph) : Repeats (Pure.pure a) g := fun _ _ _ => rfl

theorem Repeats.bind {α β : Type} {c : StateM Graph α} {k : α → StateM Graph β} {g : Graph}
    (hc : Repeats c g) (hk : Repeats (k (c g).1) (c g).2) (hgrows : (c g).2 ≤ ((c >>= k) g).2) :
    Repeats (c >>= k) g := by
  intro g' wf' hle
  change k (c g').1 (c g').2 = _
  rw [hc g' wf' (le_trans hgrows hle)]
  exact hk g' wf' hle

/-- The operands of a gate determine its number. -/
theorem gate_eq_of_nodes {g : Graph} (wf : g.WellFormed) {a b : Lit} {v : Nat}
    (h : g.nodes[v]? = some (.gate a b)) : gate a b g = (.pos v, g) := by
  rw [gate, (wf.gates a b v).2 h]

theorem nodes_gate {g : Graph} (wf : g.WellFormed) (a b : Lit) :
    (gate a b g).2.nodes[(gate a b g).1.var]? = some (.gate a b) := by
  unfold gate
  cases h : g.gates[(a, b)]? with
  | some v => exact (wf.gates a b v).1 h
  | none => exact Array.getElem?_push_size

theorem gate_repeats {g : Graph} (wf : g.WellFormed) (a b : Lit) : Repeats (gate a b) g := by
  intro g' wf' hle
  have hmade := nodes_gate wf a b
  have hpos : (gate a b g).1 = .pos (gate a b g).1.var := by
    unfold gate
    cases g.gates[(a, b)]? <;> rfl
  have hlt := (Array.getElem?_eq_some_iff.1 hmade).1
  rw [gate_eq_of_nodes wf' ((nodes_eq_of_le hle hlt).trans hmade), ← hpos]

section

variable {g : Graph} (wf : g.WellFormed) {a b c : Lit} (ha : a ∈ g) (hb : b ∈ g) (hc : c ∈ g)

include wf

theorem and_repeats (a b : Lit) : Repeats (and a b) g := by
  unfold and
  split
  · exact .pure _ g
  split
  · exact .pure _ g
  generalize (if a.code < b.code then (a, b) else (b, a)) = p
  obtain ⟨a, b⟩ := p
  dsimp only
  split
  · exact .pure _ g
  split
  · exact .pure _ g
  · exact gate_repeats wf a b

theorem or_repeats (a b : Lit) : Repeats (or a b) g :=
  (and_repeats wf a.not b.not).bind (.pure _ _) (le_refl _)

include ha hb hc

theorem or_and_repeats {d : Lit} (hd : d ∈ g) :
    Repeats (do
      let left ← and a b
      let right ← and c d
      or left right) g := by
  have hleft := and_computes wf ha hb
  have hright := and_computes hleft.wf (hleft.mem_old hc) (hleft.mem_old hd)
  have hjoin := or_computes hright.wf (hright.mem_old hleft.mem) hright.mem
  refine (and_repeats wf a b).bind ?_ (le_trans hright.grows hjoin.grows)
  refine (and_repeats hleft.wf c d).bind ?_ hjoin.grows
  exact or_repeats hright.wf _ _

theorem ite_repeats : Repeats (ite c a b) g :=
  or_and_repeats wf hc ha (not_mem_iff.2 hc) hb

end

/-- A connective that can be made again. -/
structure Repeatable (join : Lit → Lit → StateM Graph Lit) : Prop where
  computes : ∃ op, Computes join op
  repeats : ∀ {g : Graph} {a b : Lit}, g.WellFormed → a ∈ g → b ∈ g → Repeats (join a b) g

theorem and_repeatable : Repeatable and :=
  ⟨⟨_, and_computes⟩, fun wf _ _ => and_repeats wf _ _⟩

theorem or_repeatable : Repeatable or :=
  ⟨⟨_, or_computes⟩, fun wf _ _ => or_repeats wf _ _⟩

theorem implies_repeatable : Repeatable implies :=
  ⟨⟨_, @implies_computes⟩, fun wf _ _ => or_repeats wf _ _⟩

theorem xor_repeatable : Repeatable xor :=
  ⟨⟨_, @xor_computes⟩, fun wf ha hb =>
    or_and_repeats wf ha (not_mem_iff.2 hb) (not_mem_iff.2 ha) hb⟩

theorem iff_repeatable : Repeatable iff :=
  ⟨⟨_, @iff_computes⟩, fun wf ha hb =>
    (xor_repeatable.repeats wf ha hb).bind (.pure _ _) (le_refl _)⟩

theorem foldlM_repeats {join : Lit → Lit → StateM Graph Lit} (hjoin : Repeatable join)
    (ls : List Lit) {g : Graph} (wf : g.WellFormed) (hls : ∀ l ∈ ls, l ∈ g) {result : Lit}
    (hresult : result ∈ g) : Repeats (ls.foldlM join result) g := by
  obtain ⟨op, hop⟩ := hjoin.computes
  induction ls generalizing g result with
  | nil => exact .pure _ g
  | cons l ls ih =>
    have hl := hls l List.mem_cons_self
    have hfirst := hop wf hresult hl
    have hls' : ∀ m ∈ ls, m ∈ (join result l g).2 := fun m hm =>
      hfirst.mem_old (hls m (List.mem_cons_of_mem l hm))
    have hrest := foldlM_builds hop ls hfirst.wf hfirst.mem hls'
    exact (hjoin.repeats wf hresult hl).bind (ih hfirst.wf hls' hfirst.mem) hrest.grows

end Graph

end Lasso
