import Lasso.Proofs.Graph.Evaluation

/-! # What constructions on a graph build

Every connective keeps a graph well-formed, adds at most nodes, and returns an expression whose
value is the boolean function of the values of its arguments.
-/

namespace Lasso

set_option autoImplicit false

namespace Graph

/-- From `g`, a construction made an expression with the values `φ`. -/
structure Builds (g : Graph) (r : Lit × Graph) (φ : Assignment → Bool) : Prop where
  wf : r.2.WellFormed
  grows : g ≤ r.2
  mem : r.1 ∈ r.2
  eval : ∀ ρ, r.2.eval ρ r.1 = φ ρ

theorem Builds.of_mem {g : Graph} (wf : g.WellFormed) {l : Lit} (hl : l ∈ g) :
    g.Builds (l, g) (g.eval · l) :=
  ⟨wf, le_refl g, hl, fun _ => rfl⟩

theorem Builds.not {g : Graph} {r : Lit × Graph} {φ : Assignment → Bool} (h : g.Builds r φ) :
    g.Builds (r.1.not, r.2) (fun ρ => !φ ρ) :=
  ⟨h.wf, h.grows, h.mem, fun ρ => by rw [eval_not, h.eval]⟩

theorem Builds.congr {g : Graph} {r : Lit × Graph} {φ ψ : Assignment → Bool} (h : g.Builds r φ)
    (heq : ∀ ρ, φ ρ = ψ ρ) : g.Builds r ψ :=
  ⟨h.wf, h.grows, h.mem, fun ρ => (h.eval ρ).trans (heq ρ)⟩

theorem Builds.after {g : Graph} {r r' : Lit × Graph} {φ ψ : Assignment → Bool}
    (h : g.Builds r φ) (h' : r.2.Builds r' ψ) : g.Builds r' ψ :=
  ⟨h'.wf, le_trans h.grows h'.grows, h'.mem, h'.eval⟩

theorem Builds.eval_old {g : Graph} {r : Lit × Graph} {φ : Assignment → Bool} (h : g.Builds r φ)
    {l : Lit} (hl : l ∈ g) (ρ : Assignment) : r.2.eval ρ l = g.eval ρ l :=
  eval_eq_of_le h.grows ρ hl

theorem Builds.mem_old {g : Graph} {r : Lit × Graph} {φ : Assignment → Bool} (h : g.Builds r φ)
    {l : Lit} (hl : l ∈ g) : l ∈ r.2 :=
  mem_of_le h.grows hl

theorem getElem?_nodes_push {g : Graph} {node : Node} {v : Nat} (hv : v < g.size) :
    (g.nodes.push node)[v]? = g.nodes[v]? := by
  rw [Array.getElem?_push, if_neg (by simp only [size] at hv; omega)]

theorem wellFormed_input {g : Graph} (wf : g.WellFormed) : (input g).2.WellFormed where
  constants v := by
    change (g.nodes.push .input)[v]? = some .constant ↔ v < 2
    rw [Array.getElem?_push]
    have := wf.two_le_size
    split
    · simp only [size] at this
      simp
      omega
    · exact wf.constants v
  operands v a b h := by
    change (g.nodes.push .input)[v]? = some (.gate a b) at h
    rw [Array.getElem?_push] at h
    split at h
    · cases h
    · exact wf.operands v a b h
  gates a b v := by
    change g.gates[(a, b)]? = some v ↔ (g.nodes.push .input)[v]? = some (.gate a b)
    rw [Array.getElem?_push]
    split
    · rename_i hv
      simp only [reduceCtorEq, Option.some.injEq, iff_false]
      intro hgate
      have := (wf.gates a b v).1 hgate
      rw [hv] at this
      simp at this
    · exact wf.gates a b v

theorem input_builds {g : Graph} (wf : g.WellFormed) :
    g.Builds (input g) (fun ρ => ρ g.size) where
  wf := wellFormed_input wf
  grows v hv := getElem?_nodes_push hv
  mem := by
    have := wf.two_le_size
    constructor
    · change 0 < g.size
      omega
    · simp [input, size]
  eval ρ := by
    have hnode : (input g).2.nodes[g.size]? = some .input := by
      simp [input, size]
    exact (eval_pos _ _ _).trans ((wellFormed_input wf).value_input hnode ρ)

theorem wellFormed_push_gate {g : Graph} (wf : g.WellFormed) {a b : Lit} (ha : a ∈ g) (hb : b ∈ g)
    (hnew : g.gates[(a, b)]? = none) :
    ({ g with nodes := g.nodes.push (.gate a b),
              gates := g.gates.insert (a, b) g.size } : Graph).WellFormed where
  constants v := by
    change (g.nodes.push (.gate a b))[v]? = some .constant ↔ v < 2
    rw [Array.getElem?_push]
    have := wf.two_le_size
    split
    · simp only [size] at this
      simp
      omega
    · exact wf.constants v
  operands v c d h := by
    change (g.nodes.push (.gate a b))[v]? = some (.gate c d) at h
    rw [Array.getElem?_push] at h
    split at h
    · rename_i hv
      cases h
      rw [hv]
      exact ⟨ha, hb⟩
    · exact wf.operands v c d h
  gates c d v := by
    change (g.gates.insert (a, b) g.size)[(c, d)]? = some v ↔
      (g.nodes.push (.gate a b))[v]? = some (.gate c d)
    rw [Std.HashMap.getElem?_insert, Array.getElem?_push]
    have hold := wf.gates c d v
    by_cases hkey : (a, b) = (c, d)
    · obtain ⟨rfl, rfl⟩ := Prod.mk.inj hkey
      have hno : g.nodes[v]? ≠ some (.gate a b) := by
        intro h
        rw [hold.2 h] at hnew
        cases hnew
      by_cases hv : v = g.nodes.size
      · simp [hv, size]
      · simp [hv, hno, size]
        omega
    · by_cases hv : v = g.nodes.size
      · have hne : ¬ (a = c ∧ b = d) := fun h => hkey (by rw [h.1, h.2])
        have hgone : g.gates[(c, d)]? ≠ some v := by
          intro h
          have := hold.1 h
          simp [hv] at this
        simpa [hv, hne] using hv ▸ hgone
      · have hne : ¬ (a = c ∧ b = d) := fun h => hkey (by rw [h.1, h.2])
        simpa [hv, hne] using hold

theorem gate_builds {g : Graph} (wf : g.WellFormed) {a b : Lit} (ha : a ∈ g) (hb : b ∈ g) :
    g.Builds (gate a b g) (fun ρ => g.eval ρ a && g.eval ρ b) := by
  unfold gate
  split
  · rename_i v hv
    have hnode := (wf.gates a b v).1 hv
    refine ⟨wf, le_refl g, ⟨?_, ?_⟩, fun ρ => ?_⟩
    · have := (wf.operands v a b hnode).1
      simp only [Lit.var_pos]
      omega
    · have hlt := (Array.getElem?_eq_some_iff.1 hnode).1
      exact hlt
    · rw [eval_pos, wf.value_gate hnode]
  · rename_i hnew
    have wf' := wellFormed_push_gate wf ha hb hnew
    have hle : g ≤ { g with nodes := g.nodes.push (.gate a b),
                            gates := g.gates.insert (a, b) g.size } :=
      fun v hv => getElem?_nodes_push hv
    refine ⟨wf', hle, ⟨?_, ?_⟩, fun ρ => ?_⟩
    · have := wf.two_le_size
      simp only [Lit.var_pos]
      omega
    · simp [size]
    · have hnode : (g.nodes.push (.gate a b))[g.size]? = some (.gate a b) := by
        simp [size]
      rw [eval_pos, wf'.value_gate hnode, eval_eq_of_le hle ρ ha, eval_eq_of_le hle ρ hb]

/-- A construction makes an expression for a boolean function of two others. -/
def Computes (join : Lit → Lit → StateM Graph Lit) (op : Bool → Bool → Bool) : Prop :=
  ∀ {g : Graph} {a b : Lit}, g.WellFormed → a ∈ g → b ∈ g →
    g.Builds (join a b g) (fun ρ => op (g.eval ρ a) (g.eval ρ b))

theorem and_computes : Computes and Bool.and := by
  intro g a b wf ha hb
  unfold and
  split
  · rename_i hab
    subst hab
    exact (Builds.of_mem wf ha).congr fun ρ => (Bool.and_self _).symm
  split
  · rename_i hab
    exact (Builds.of_mem wf wf.falsity_mem).congr fun ρ => by simp [hab]
  · -- the operands are put in order first, which does not change the conjunction
    have ordered : ∀ c d : Lit, c ∈ g → d ∈ g → g.Builds
        ((if c = falsity then return falsity else if c = truth then return d else gate c d) g)
        (fun ρ => g.eval ρ c && g.eval ρ d) := by
      intro c d hc hd
      split
      · rename_i hcf
        exact (Builds.of_mem wf wf.falsity_mem).congr fun ρ => by simp [hcf]
      split
      · rename_i hct
        exact (Builds.of_mem wf hd).congr fun ρ => by simp [hct]
      · exact gate_builds wf hc hd
    by_cases hcode : a.code < b.code
    · simp only [if_pos hcode]
      exact ordered a b ha hb
    · simp only [if_neg hcode]
      exact (ordered b a hb ha).congr fun ρ => Bool.and_comm _ _

theorem or_computes : Computes or Bool.or := by
  intro g a b wf ha hb
  have h := (and_computes (a := a.not) (b := b.not) wf ha hb).not
  exact h.congr fun ρ => by simp

theorem implies_computes : Computes implies (fun x y => !x || y) := by
  intro g a b wf ha hb
  exact (or_computes (a := a.not) wf ha hb).congr fun ρ => by simp

theorem or_and_builds {g : Graph} (wf : g.WellFormed) {a b c d : Lit} (ha : a ∈ g) (hb : b ∈ g)
    (hc : c ∈ g) (hd : d ∈ g) :
    g.Builds ((do let left ← and a b; let right ← and c d; or left right : StateM Graph Lit) g)
      (fun ρ => (g.eval ρ a && g.eval ρ b) || (g.eval ρ c && g.eval ρ d)) := by
  have hleft := and_computes wf ha hb
  have hright := and_computes hleft.wf (hleft.mem_old hc) (hleft.mem_old hd)
  have hor := or_computes hright.wf (hright.mem_old hleft.mem) hright.mem
  refine (hleft.after (hright.after hor)).congr fun ρ => ?_
  rw [hright.eval_old hleft.mem, hleft.eval, hright.eval, hleft.eval_old hc, hleft.eval_old hd]

theorem xor_computes : Computes xor Bool.xor := by
  intro g a b wf ha hb
  refine (or_and_builds (a := a) (b := b.not) (c := a.not) (d := b) wf ha hb ha hb).congr
    fun ρ => ?_
  cases ha : g.eval ρ a <;> cases hb : g.eval ρ b <;> simp [ha, hb]

theorem iff_computes : Computes iff (fun x y => x == y) := by
  intro g a b wf ha hb
  refine (xor_computes wf ha hb).not.congr fun ρ => ?_
  cases g.eval ρ a <;> cases g.eval ρ b <;> rfl

theorem ite_builds {g : Graph} (wf : g.WellFormed) {c a b : Lit} (hc : c ∈ g) (ha : a ∈ g)
    (hb : b ∈ g) :
    g.Builds (ite c a b g) (fun ρ => bif g.eval ρ c then g.eval ρ a else g.eval ρ b) := by
  refine (or_and_builds (a := c) (b := a) (c := c.not) (d := b) wf hc ha hc hb).congr fun ρ => ?_
  cases hc : g.eval ρ c <;> simp [hc]

theorem foldlM_builds {join : Lit → Lit → StateM Graph Lit} {op : Bool → Bool → Bool}
    (hjoin : Computes join op) (ls : List Lit) {g : Graph} (wf : g.WellFormed) {first : Lit}
    (hfirst : first ∈ g) (hls : ∀ l ∈ ls, l ∈ g) :
    g.Builds (ls.foldlM join first g)
      (fun ρ => (ls.map (g.eval ρ)).foldl op (g.eval ρ first)) := by
  induction ls generalizing g first with
  | nil => exact Builds.of_mem wf hfirst
  | cons l ls ih =>
    have hl := hls l List.mem_cons_self
    have hstep := hjoin wf hfirst hl
    have hrest := ih hstep.wf hstep.mem fun m hm => hstep.mem_old (hls m (List.mem_cons_of_mem l hm))
    refine (hstep.after hrest).congr fun ρ => ?_
    have hmap : ls.map ((join first l g).2.eval ρ) = ls.map (g.eval ρ) :=
      List.map_congr_left fun m hm => hstep.eval_old (hls m (List.mem_cons_of_mem l hm)) ρ
    rw [hmap, hstep.eval]
    rfl

theorem foldl_and {α : Type} (f : α → Bool) (as : List α) (b : Bool) :
    as.foldl (fun acc a => acc && f a) b = (b && as.all f) := by
  induction as generalizing b with
  | nil => simp
  | cons a as ih => simp [ih, Bool.and_assoc]

theorem foldl_or {α : Type} (f : α → Bool) (as : List α) (b : Bool) :
    as.foldl (fun acc a => acc || f a) b = (b || as.any f) := by
  induction as generalizing b with
  | nil => simp
  | cons a as ih => simp [ih, Bool.or_assoc]

theorem all_builds (ls : List Lit) {g : Graph} (wf : g.WellFormed) (hls : ∀ l ∈ ls, l ∈ g) :
    g.Builds (all ls g) (fun ρ => ls.all (g.eval ρ)) := by
  refine (foldlM_builds and_computes ls wf wf.truth_mem hls).congr fun ρ => ?_
  rw [List.foldl_map, eval_truth]
  exact foldl_and _ ls true

theorem any_builds (ls : List Lit) {g : Graph} (wf : g.WellFormed) (hls : ∀ l ∈ ls, l ∈ g) :
    g.Builds (any ls g) (fun ρ => ls.any (g.eval ρ)) := by
  refine (foldlM_builds or_computes ls wf wf.falsity_mem hls).congr fun ρ => ?_
  rw [List.foldl_map, eval_falsity]
  exact foldl_or _ ls false

end Graph

end Lasso
