import Lasso.Proofs.Graph.Cone

/-! # The order of a support

An expression is walked down with a stack and a set of the numbers that were visited; an operand
that is shared may lie on the stack more than once.  The walk ends, and what it finds is the
support.  On the traversal of the expression as a tree, the first operand of a gate before the
second, the free variables come first in this order.
-/

namespace Lasso

set_option autoImplicit false

/-- A walk down from an expression: what is still to be visited, the numbers that were visited and
the free variables found. -/
structure Descent where
  stack : List Lit
  visited : Std.HashSet Nat
  found : Array Lit

/-- The free variables among the nodes reached, in order of arrival. -/
def Reached.inputs (g : Graph) (r : Reached) : List Lit :=
  (r.order.toList.filter fun v => (g.operands? v).isNone).map .pos

namespace Descent

def start (l : Lit) : Descent := ⟨[l], {}, #[]⟩

/-- Takes one expression off the stack.  In place of a gate come its operands, the first on top. -/
def step (g : Graph) (d : Descent) : Option Descent :=
  match d.stack with
  | [] => none
  | l :: rest =>
    if d.visited.contains l.var || Graph.isConstant l then some { d with stack := rest }
    else match g.operands? l.var with
      | some ⟨(a, b), _⟩ => some ⟨a :: b :: rest, d.visited.insert l.var, d.found⟩
      | none => some ⟨rest, d.visited.insert l.var, d.found.push (.pos l.var)⟩

/-- After finitely many steps the stack is empty, and some free variables were found. -/
inductive Ends (g : Graph) : Descent → List Lit → Prop where
  | stop {d : Descent} (h : d.step g = none) : Ends g d d.found.toList
  | next {d d' : Descent} {ls : List Lit} (h : d.step g = some d') (hd : Ends g d' ls) : Ends g d ls

section

variable {g : Graph} {d d' : Descent} {l : Lit} {rest ls ms : List Lit}

theorem Ends.unique (hl : Ends g d ls) (hm : Ends g d ms) : ls = ms := by
  induction hl with
  | stop h =>
    cases hm with
    | stop => rfl
    | next h' => exact absurd (h.symm.trans h') (by simp)
  | next h _ ih =>
    cases hm with
    | stop h' => exact absurd (h'.symm.trans h) (by simp)
    | next h' hd =>
      obtain rfl := Option.some.inj (h.symm.trans h')
      exact ih hd

variable (hstack : d.stack = l :: rest)

include hstack

theorem step_skip (h : l.var = 1 ∨ l.var ∈ d.visited) :
    d.step g = some { d with stack := rest } := by
  have hskip : (d.visited.contains l.var || Graph.isConstant l) = true := by
    rw [Bool.or_eq_true, Std.HashSet.contains_iff_mem, Graph.isConstant, beq_iff_eq]
    exact h.symm
  simp only [step, hstack, if_pos hskip]

theorem step_visit (h : ¬ (l.var = 1 ∨ l.var ∈ d.visited)) :
    d.step g = match g.operands? l.var with
      | some p => some ⟨p.1.1 :: p.1.2 :: rest, d.visited.insert l.var, d.found⟩
      | none => some ⟨rest, d.visited.insert l.var, d.found.push (.pos l.var)⟩ := by
  have hvisit : ¬ (d.visited.contains l.var || Graph.isConstant l) = true := by
    rw [Bool.or_eq_true, Std.HashSet.contains_iff_mem, Graph.isConstant, beq_iff_eq]
    exact fun hor => h hor.symm
  simp only [step, hstack, if_neg hvisit]
  cases g.operands? l.var with
  | none => rfl
  | some p => rfl

end

/-- Up to a number, what a walk has visited is what was reached, and it found the free variables
among that. -/
structure Tracks (g : Graph) (v : Nat) (r : Reached) (d : Descent) : Prop where
  reached : ∀ w ∈ r.order, w ∈ d.visited
  visited : ∀ w ≤ v, w ∈ d.visited → w ∈ r.order
  found : d.found.toList = r.inputs g

/-- A walk comes to what lies below the top of its stack, having visited besides what it had before
no more than what was reached. -/
structure Comes (g : Graph) (r : Reached) (rest : List Lit) (d d' : Descent) : Prop where
  stack : d'.stack = rest
  keeps : ∀ w ∈ d.visited, w ∈ d'.visited
  reached : ∀ w ∈ r.order, w ∈ d'.visited
  visited : ∀ w ∈ d'.visited, w ∈ d.visited ∨ w ∈ r.order
  found : d'.found.toList = r.inputs g
  ends : ∀ ls, Ends g d' ls → Ends g d ls

/-- Beneath a gate that is marked before its operands are visited, the mark makes no difference. -/
theorem Tracks.mark {g : Graph} {v w : Nat} {r : Reached} {d : Descent} (h : Tracks g v r d)
    (hw : w < v) (stack : List Lit) : Tracks g w r ⟨stack, d.visited.insert v, d.found⟩ where
  reached u hu := Std.HashSet.mem_insert.2 (.inr (h.reached u hu))
  visited u hu hmem := by
    refine h.visited u (by omega) ((Std.HashSet.mem_insert.1 hmem).resolve_left fun heq => ?_)
    have := eq_of_beq heq
    omega
  found := h.found

theorem Tracks.comes {g : Graph} {v w : Nat} {r r' : Reached} {rest : List Lit} {d d' : Descent}
    (h : Tracks g v r d) (hd : Comes g r' rest d d') (hw : w ≤ v)
    (hkeep : ∀ u ∈ r.order, u ∈ r'.order) : Tracks g w r' d' where
  reached := hd.reached
  visited u hu hmem := by
    rcases hd.visited u hmem with hmem | hmem
    · exact hkeep u (h.visited u (by omega) hmem)
    · exact hmem
  found := hd.found

section

variable {g : Graph} {r : Reached} {l : Lit} {d : Descent} {rest : List Lit}
  (hstack : d.stack = l :: rest)

include hstack

theorem Comes.skip (hskip : l.var = 1 ∨ l.var ∈ d.visited) (hd : Tracks g l.var r d) :
    Comes g r rest d { d with stack := rest } where
  stack := rfl
  keeps _ := id
  reached := hd.reached
  visited _ := .inl
  found := hd.found
  ends _ := .next (step_skip hstack hskip)

variable (hnew : ¬ (l.var = 1 ∨ l.var ∈ d.visited))

include hnew

theorem Comes.input (hops : g.operands? l.var = none) (hd : Tracks g l.var r d) :
    Comes g (r.push l.var) rest d ⟨rest, d.visited.insert l.var, d.found.push (.pos l.var)⟩ where
  stack := rfl
  keeps _ hw := Std.HashSet.mem_insert.2 (.inr hw)
  reached w hw := by
    rcases Reached.mem_push_order.1 hw with hw | rfl
    · exact Std.HashSet.mem_insert.2 (.inr (hd.reached w hw))
    · exact Std.HashSet.mem_insert_self
  visited w hw := by
    rcases Std.HashSet.mem_insert.1 hw with hw | hw
    · exact .inr (Reached.mem_push_order.2 (.inr (eq_of_beq hw).symm))
    · exact .inl hw
  found := by
    rw [Array.toList_push, hd.found]
    simp [Reached.inputs, Reached.push, hops]
  ends _ := .next (by rw [step_visit hstack hnew, hops])

theorem Comes.gate {p} (hops : g.operands? l.var = some p) {r₁ r₂ : Reached} {d₁ d₂ : Descent}
    (h₁ : Comes g r₁ (p.1.2 :: rest)
      ⟨p.1.1 :: p.1.2 :: rest, d.visited.insert l.var, d.found⟩ d₁)
    (h₂ : Comes g r₂ rest d₁ d₂) (hkeep : ∀ w ∈ r₁.order, w ∈ r₂.order) :
    Comes g (r₂.push l.var) rest d d₂ where
  stack := h₂.stack
  keeps w hw := h₂.keeps w (h₁.keeps w (Std.HashSet.mem_insert.2 (.inr hw)))
  reached w hw := by
    rcases Reached.mem_push_order.1 hw with hw | rfl
    · exact h₂.reached w hw
    · exact h₂.keeps _ (h₁.keeps _ Std.HashSet.mem_insert_self)
  visited w hw := by
    rw [Reached.mem_push_order]
    rcases h₂.visited w hw with hw | hw
    · rcases h₁.visited w hw with hw | hw
      · rcases Std.HashSet.mem_insert.1 hw with hw | hw
        · exact .inr (.inr (eq_of_beq hw).symm)
        · exact .inl hw
      · exact .inr (.inl (hkeep w hw))
    · exact .inr (.inl hw)
  found := by
    rw [h₂.found]
    simp [Reached.inputs, Reached.push, hops]
  ends ls hls := .next (by rw [step_visit hstack hnew, hops]) (h₁.ends ls (h₂.ends ls hls))

end

/-- All that lies beneath the top of the stack is visited before anything else on it. -/
theorem exists_comes {g : Graph} {r : Reached} (hr : r.Closed g) {l : Lit} {d : Descent}
    {rest : List Lit} (hstack : d.stack = l :: rest) (hd : Tracks g l.var r d) :
    ∃ d', Comes g (g.visit l.var r) rest d d' := by
  generalize hv : l.var = v at hd ⊢
  induction v using Nat.strongRecOn generalizing r l d rest with
  | _ v ih =>
    subst hv
    have hseen : r.seen.contains l.var = true ↔ l.var ∈ d.visited := by
      rw [hr.seen]
      exact ⟨hd.reached l.var, hd.visited l.var (Nat.le_refl _)⟩
    rw [Graph.visit]
    split
    case isTrue hskip =>
      rw [hseen] at hskip
      exact ⟨_, .skip hstack hskip hd⟩
    rename_i hnew
    rw [hseen] at hnew
    split
    case h_1 hops => exact ⟨_, .input hstack hnew hops hd⟩
    case h_2 a b hlt hops =>
      obtain ⟨ha, hkeepa, -⟩ := Graph.visit_closed g a.var hr
      obtain ⟨-, hkeepb, -⟩ := Graph.visit_closed g b.var ha
      have hmark := hd.mark hlt.1 (a :: b :: rest)
      obtain ⟨d₁, h₁⟩ := ih a.var hlt.1 hr rfl rfl hmark
      have hbetween := (hd.mark hlt.2 (a :: b :: rest)).comes h₁ (Nat.le_refl _) hkeepa
      obtain ⟨d₂, h₂⟩ := ih b.var hlt.2 ha h₁.stack rfl hbetween
      exact ⟨d₂, .gate hstack hnew hops h₁ h₂ hkeepb⟩

theorem ends_start_iff {g : Graph} {l : Lit} {ls : List Lit} :
    Ends g (start l) ls ↔ ls = g.support l := by
  have htracks : Tracks g l.var ∅ (start l) := by
    refine ⟨fun w hw => ?_, fun w _ hw => ?_, rfl⟩
    · simp [EmptyCollection.emptyCollection, Reached.empty] at hw
    · simp [start] at hw
  obtain ⟨d, hd⟩ := exists_comes (Reached.closed_empty g) rfl htracks
  have hstop : d.step g = none := by rw [step, hd.stack]
  have hends : Ends g (start l) (g.support l) := by
    have hfound := hd.ends _ (.stop hstop)
    rwa [hd.found] at hfound
  constructor
  · exact fun h => h.unique hends
  · rintro rfl
    exact hends

end Descent

namespace Graph

/-- The numbers that a traversal of an expression as a tree comes to, a gate before its operands and
the first of these before the second. -/
def traversal (g : Graph) (v : Nat) : List Nat :=
  match g.operands? v with
  | none => [v]
  | some ⟨(a, b), _⟩ => v :: (g.traversal a.var ++ g.traversal b.var)
termination_by v
decreasing_by all_goals simp_all

theorem traversal_of_operands?_eq_none {g : Graph} {v : Nat} (h : g.operands? v = none) :
    g.traversal v = [v] := by
  rw [traversal]
  split
  · rfl
  · simp_all

theorem traversal_of_operands?_eq_some {g : Graph} {v : Nat} {p} (h : g.operands? v = some p) :
    g.traversal v = v :: (g.traversal p.1.1.var ++ g.traversal p.1.2.var) := by
  rw [traversal]
  split
  · simp_all
  · rename_i a b hlt hp
    rw [h] at hp
    cases hp
    rfl

theorem WellFormed.operands?_one {g : Graph} (wf : g.WellFormed) : g.operands? 1 = none := by
  have hnode := (wf.constants 1).2 (by omega)
  simp [operands?, node, hnode]

/-- The free variables on the traversal of an expression, in order, as often as it comes to them. -/
def leaves (g : Graph) (v : Nat) : List Nat := (g.traversal v).filter fun w => g.isInput (.pos w)

theorem removeAll_eq_removeAll {xs ys zs us : List Nat}
    (h : ∀ w ∈ xs, w ∈ us ↔ w ∈ ys ∨ w ∈ zs) :
    xs.removeAll us = (xs.removeAll ys).removeAll zs := by
  simp only [List.removeAll, List.filter_filter]
  apply List.filter_congr
  intro w hw
  have hw' := h w hw
  by_cases hy : w ∈ ys <;> by_cases hz : w ∈ zs <;> simp_all

section

variable {g : Graph} (wf : g.WellFormed) {v : Nat}

include wf

theorem leaves_one : g.leaves 1 = [] := by
  rw [leaves, traversal_of_operands?_eq_none wf.operands?_one]
  rfl

omit wf in
theorem leaves_of_operands?_eq_none (hone : v ≠ 1) (h : g.operands? v = none) :
    g.leaves v = [v] := by
  rw [leaves, traversal_of_operands?_eq_none h]
  simp [isInput, isConstant, hone, h]

omit wf in
theorem leaves_of_operands?_eq_some {p} (h : g.operands? v = some p) :
    g.leaves v = g.leaves p.1.1.var ++ g.leaves p.1.2.var := by
  rw [leaves, traversal_of_operands?_eq_some h]
  simp [leaves, isInput, h]

theorem leaves_of_closed {r : Reached} (hr : r.Closed g) (hv : v = 1 ∨ v ∈ r.order) :
    ∀ w ∈ g.leaves v, w ∈ r.order := by
  induction v using Nat.strongRecOn with
  | _ v ih =>
    rcases hv with rfl | hv
    · rw [leaves_one wf]
      exact nofun
    have hone : v ≠ 1 := fun h => hr.ne_one (h ▸ hv)
    cases hp : g.operands? v with
    | none =>
      rw [leaves_of_operands?_eq_none hone hp]
      simpa using hv
    | some p =>
      rw [leaves_of_operands?_eq_some hp]
      obtain ⟨ha, hb⟩ := hr.operands v hv p hp
      intro w hw
      exact (List.mem_append.1 hw).elim (ih _ p.2.1 ha w) (ih _ p.2.2 hb w)

/-- A visit adds the free variables that were not reached before, where they come first. -/
theorem visit_filter {r : Reached} (hr : r.Closed g) :
    (g.visit v r).order.toList.filter (fun w => (g.operands? w).isNone) =
      r.order.toList.filter (fun w => (g.operands? w).isNone) ++
        ((g.leaves v).removeAll r.order.toList).eraseDups := by
  induction v using Nat.strongRecOn generalizing r with
  | _ v ih =>
    rw [visit]
    split
    case isTrue hskip =>
      rw [hr.seen] at hskip
      have hnone : (g.leaves v).removeAll r.order.toList = [] := by
        rw [List.removeAll, List.filter_eq_nil_iff]
        intro w hw
        simpa using leaves_of_closed wf hr hskip w hw
      rw [hnone, List.eraseDups_nil, List.append_nil]
    rename_i hnew
    rw [hr.seen, not_or] at hnew
    split
    case h_1 hops =>
      rw [leaves_of_operands?_eq_none hnew.1 hops]
      simp [Reached.push, hops, List.removeAll, hnew.2, List.eraseDups_cons]
    case h_2 a b hlt hops =>
      obtain ⟨ha, -, -⟩ := visit_closed g a.var hr
      have hfirst := ih a.var hlt.1 hr
      have hsecond := ih b.var hlt.2 ha
      -- after the first operand, those of its free variables are there that were not before
      have hmem : ∀ w ∈ g.leaves b.var, w ∈ (g.visit a.var r).order.toList ↔
          w ∈ r.order.toList ∨ w ∈ (g.leaves a.var).removeAll r.order.toList := by
        intro w hw
        have hinput : (g.operands? w).isNone = true :=
          (Bool.and_eq_true_iff.1 (List.mem_filter.1 hw).2).2
        have hiff := congrArg (w ∈ ·) hfirst
        simpa [hinput] using hiff
      rw [leaves_of_operands?_eq_some hops, List.removeAll, List.filter_append,
        List.eraseDups_append, ← List.removeAll, ← List.removeAll, ← removeAll_eq_removeAll hmem,
        ← List.append_assoc, ← hfirst, ← hsecond]
      simp [Reached.push, hops]

/-- The support of an expression is in the order in which a traversal first comes to its free
variables. -/
theorem support_eq_leaves (l : Lit) : g.support l = (g.leaves l.var).eraseDups.map .pos := by
  have hvisit := visit_filter wf (v := l.var) (Reached.closed_empty g)
  have hempty : (∅ : Reached).order.toList = [] := rfl
  rw [hempty, List.filter_nil, List.nil_append] at hvisit
  have hall : (g.leaves l.var).removeAll [] = g.leaves l.var := by simp [List.removeAll]
  rw [hall] at hvisit
  rw [support, reach, List.foldl_cons, List.foldl_nil, hvisit]

theorem mem_support_iff_beneath {l : Lit} (hl : l ∈ g) {m : Lit} :
    m ∈ g.support l ↔ ∃ v, m = .pos v ∧ g.Beneath [l] v ∧ g.nodes[v]? = some .input := by
  have hroots : ∀ k ∈ [l], k ∈ g := fun k hk => by rwa [List.mem_singleton.1 hk]
  rw [mem_support_iff, mem_reach_iff wf]
  constructor
  · rintro ⟨hpos, ⟨hone, hbeneath⟩, hops⟩
    exact ⟨m.var, hpos, hbeneath, nodes_eq_input_of_beneath wf hroots hbeneath hone hops⟩
  · rintro ⟨v, rfl, hbeneath, hnode⟩
    exact ⟨rfl, ⟨wf.ne_one_of_input hnode, hbeneath⟩, operands?_eq_none_of_input hnode⟩

end

end Graph

end Lasso
