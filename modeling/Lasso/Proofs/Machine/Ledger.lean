import Lasso.Proofs.Graph.Dimacs
import Lasso.Proofs.Machine.Conversion
import Lasso.Proofs.Machine.Image

/-! # Instances, whatever was asked for before

A ledger is an encoding with all that was rebuilt so far, time by time.  Whatever was declared,
converted and moved in time before, an expression moved in time with a ledger is the expression
moved in time without one, and that is substitution.  The timed variables there are at any point are
those that were asked for.
-/

namespace Lasso

set_option autoImplicit false

namespace Encoding

theorem timeline_rebuildNode {leaf : Nat → StateM Encoding Lit}
    (hleaf : ∀ (v : Nat) (e : Encoding), (leaf v e).2.timeline = e.timeline) (v : Nat)
    (memo : Std.HashMap Nat Lit) (e : Encoding) :
    (rebuildNode leaf v memo e).2.timeline = e.timeline := by
  induction v using Nat.strongRecOn generalizing e memo with
  | _ v ih =>
    rw [rebuildNode_eq]
    split
    · rfl
    split
    · rfl
    split
    · exact hleaf v e
    · rename_i p _
      exact (ih p.1.2.var p.2.2 _ _).trans (ih p.1.1.var p.2.1 memo e)

theorem timeline_shift (l : Lit) (e : Encoding) : (shift l e).2.timeline = e.timeline := by
  rw [shift_eq]
  exact timeline_rebuildNode (fun v e => by rw [leafNext_eq]) l.var {} e

theorem timeline_connect (c : Connective) (p : Bool) (ls : List Lit) (e : Encoding) :
    ((connect c p ls).run e).2.timeline = e.timeline := by
  unfold connect
  split
  case h_2 a =>
    change ((connect .next p [a]).run e).2.timeline = e.timeline
    rw [connect_next_eq]
    split
    · split <;> exact timeline_shift a e
    · rfl
  case h_9 => split <;> rfl
  all_goals rfl

section

variable {α : Type}

mutual

theorem timeline_condition (p : Bool) : (x : SExpr α) → (e : Encoding) →
    ((condition p x).run e).2.timeline = e.timeline
  | .symbol note name, e => by rw [condition_symbol_eq]
  | .list note (.symbol note' name :: args), e => by
    have hargs := timeline_conditions p args e
    rw [condition_list_eq]
    generalize (conditions p args).run e = r at hargs ⊢
    obtain ⟨r, e₁⟩ := r
    cases r with
    | error err => exact hargs
    | ok ls =>
      cases Connective.ofName? name with
      | none => exact hargs
      | some c => exact (timeline_connect c p ls e₁).trans hargs
  | .list _ [], e => by rw [condition_nil_eq]
  | .list _ (.list _ _ :: _), e => by rw [condition_nested_eq]

theorem timeline_conditions (p : Bool) : (xs : List (SExpr α)) → (e : Encoding) →
    ((conditions p xs).run e).2.timeline = e.timeline
  | [], e => by
    rw [conditions]
    rfl
  | x :: xs, e => by
    have hx := timeline_condition p x e
    rw [conditions_cons_eq]
    generalize (condition p x).run e = r at hx ⊢
    obtain ⟨r, e₁⟩ := r
    cases r with
    | error err => exact hx
    | ok l => exact (timeline_conditions p xs e₁).trans hx

end

end

theorem timeline_declare (isInput : Bool) (name : String) (e : Encoding) :
    (declare isInput name e).2.timeline = e.timeline := by
  rw [declare_eq]
  split
  · rfl
  split
  · rfl
  split <;> rfl

/-- The variable and the time that a boolean variable stands for at a time. -/
def due? (e : Encoding) (time : UInt64) (v : Nat) : Option (Nat × UInt64) :=
  match e.origins[v]? with
  | some (.current i) => some (i, time)
  | some (.next i) => some (i, time + 1)
  | _ => none

/-- The variables, with their times, that an expression at a time is made of. -/
def due (e : Encoding) (l : Lit) (time : UInt64) : List (Nat × UInt64) :=
  (e.graph.support l).filterMap fun m => e.due? time m.var

theorem due?_of_le {e e' : Encoding} (hle : e ≤ e') (time : UInt64) {v : Nat}
    (hv : Lit.pos v ∈ e.graph) : e'.due? time v = e.due? time v := by
  rw [due?, due?, hle.origins v hv.2]

theorem WellFormed.input_of_due? {e : Encoding} (wf : e.WellFormed) {time : UInt64} {v : Nat}
    {k : Nat × UInt64} (hk : e.due? time v = some k) : e.graph.nodes[v]? = some .input := by
  cases ho : e.origins[v]? with
  | none => simp [due?, ho] at hk
  | some o => exact wf.origins v o ho

theorem mem_due_iff {e : Encoding} (wf : e.WellFormed) {l : Lit} {time : UInt64}
    {k : Nat × UInt64} :
    k ∈ e.due l time ↔ ∃ v, e.graph.Beneath [l] v ∧ e.due? time v = some k := by
  simp only [due, List.mem_filterMap, Graph.mem_support_iff, Graph.mem_reach_iff wf.graph]
  constructor
  · rintro ⟨m, ⟨-, ⟨-, hm⟩, -⟩, hk⟩
    exact ⟨m.var, hm, hk⟩
  · rintro ⟨v, hv, hk⟩
    have hinput := wf.input_of_due? hk
    exact ⟨.pos v, ⟨rfl, ⟨wf.graph.ne_one_of_input hinput, hv⟩,
      Graph.operands?_eq_none_of_input hinput⟩, hk⟩

theorem leafAt_eq_of_due? (time : UInt64) (v : Nat) (e : Encoding) :
    leafAt time v e = match e.due? time v with
      | some (i, t) => variableAt i t e
      | none => (.pos v, e) := by
  rw [leafAt_eq, due?]
  cases e.origins[v]? with
  | none => rfl
  | some o => cases o <;> rfl

theorem mem_timeline_variableAt (i : Nat) (t : UInt64) (e : Encoding) {k : Nat × UInt64} :
    k ∈ (variableAt i t e).2.timeline ↔ k = (i, t) ∨ k ∈ e.timeline := by
  rw [variableAt_eq]
  cases hl : e.timeline[(i, t)]? with
  | some l =>
    refine ⟨.inr, ?_⟩
    rintro (rfl | hk)
    · exact Std.HashMap.mem_iff_isSome_getElem?.2 (by rw [hl]; rfl)
    · exact hk
  | none =>
    change k ∈ e.timeline.insert (i, t) _ ↔ _
    rw [Std.HashMap.mem_insert, beq_iff_eq, eq_comm]

theorem leafAt_settles (time : UInt64) : Settles (leafAt time) where
  wf v wf := (leafAt_leaves time).wf v wf
  grows v wf := (leafAt_leaves time).grows v wf
  mem wf hv := (leafAt_remakes wf time hv).there
  again {e e' v} wf wf' hv hle := by
    have hdue := due?_of_le (le_trans ((leafAt_leaves time).grows v wf) hle) time hv
    rw [leafAt_eq_of_due?] at hle ⊢
    rw [leafAt_eq_of_due?, hdue]
    cases hk : e.due? time v with
    | none => rfl
    | some k =>
      obtain ⟨i, t⟩ := k
      rw [hk] at hle
      have hmade := variableAt_builds wf i t
      dsimp only
      rw [variableAt_eq i t e', timeline_of_le hmade.wf wf' hle (timeline_variableAt i t)]

theorem Image.beneath {leaf : Nat → StateM Encoding Lit} {e : Encoding} (wf : e.WellFormed)
    {l m : Lit} (h : Image leaf e l.var m) {v : Nat} (hv : e.graph.Beneath [l] v) :
    ∃ n, Image leaf e v n := by
  have hoperands : ∀ {w : Nat} {a b n : Lit}, Image leaf e w n →
      e.graph.nodes[w]? = some (.gate a b) →
      (∃ n, Image leaf e a.var n) ∧ ∃ n, Image leaf e b.var n := by
    intro w a b n hw hnode
    obtain ⟨_, hops⟩ := wf.graph.operands?_eq_some hnode
    cases hw with
    | one => exact absurd rfl (wf.graph.ne_one_of_gate hnode)
    | free _ hnone => exact absurd (hnone.symm.trans hops) (by simp)
    | gate _ hops' ha hb =>
      obtain rfl := Option.some.inj (hops'.symm.trans hops)
      exact ⟨⟨_, ha⟩, _, hb⟩
  induction hv with
  | root hl =>
    obtain rfl := List.mem_singleton.1 hl
    exact ⟨m, h⟩
  | left _ hnode ih =>
    obtain ⟨n, hn⟩ := ih
    exact (hoperands hn hnode).1
  | right _ hnode ih =>
    obtain ⟨n, hn⟩ := ih
    exact (hoperands hn hnode).2

theorem Image.mem_timeline {e : Encoding} (wf : e.WellFormed) {time : UInt64} {v : Nat} {l : Lit}
    (h : Image (leafAt time) e v l) {k : Nat × UInt64} (hk : e.due? time v = some k) :
    k ∈ e.timeline := by
  have hinput := wf.input_of_due? hk
  cases h with
  | one => exact absurd rfl (wf.graph.ne_one_of_input hinput)
  | free _ _ hmade =>
    rw [leafAt_eq_of_due?, hk] at hmade
    change variableAt k.1 k.2 e = (l, e) at hmade
    have hmem := (mem_timeline_variableAt k.1 k.2 e).2 (.inl rfl)
    rw [hmade] at hmem
    exact hmem
  | gate _ hops =>
    exact absurd (hops.symm.trans (Graph.operands?_eq_none_of_input hinput)) (by simp)

/-- Rebuilding asks for no timed variable that the expression is not made of. -/
theorem mem_timeline_of_rebuildNode {e : Encoding} (wf : e.WellFormed) {l : Lit} (hl : l ∈ e.graph)
    (time : UInt64) {k : Nat × UInt64} {v : Nat} (hv : e.graph.Beneath [l] v) {e₁ : Encoding}
    (wf₁ : e₁.WellFormed) (hle : e ≤ e₁) {memo : Std.HashMap Nat Lit}
    (hmemo : Images (leafAt time) e₁ memo)
    (hk : k ∈ (rebuildNode (leafAt time) v memo e₁).2.timeline) :
    k ∈ e.due l time ∨ k ∈ e₁.timeline := by
  -- along the walk: only a leaf asks for a timed variable, and it lies beneath the expression
  induction v using Nat.strongRecOn generalizing e₁ memo with
  | _ v ih =>
    have hmem : Lit.pos v ∈ e.graph :=
      hv.mem wf.graph fun m hm => by rwa [List.mem_singleton.1 hm]
    rw [rebuildNode_eq] at hk
    split at hk
    · exact .inr hk
    split at hk
    · exact .inr hk
    split at hk
    · have hdue : e₁.due? time v = e.due? time v := due?_of_le hle time hmem
      change k ∈ (leafAt time v e₁).2.timeline at hk
      rw [leafAt_eq_of_due?, hdue] at hk
      cases hkey : e.due? time v with
      | none =>
        rw [hkey] at hk
        exact .inr hk
      | some key =>
        rw [hkey] at hk
        refine ((mem_timeline_variableAt _ _ _).1 hk).imp_left ?_
        rintro rfl
        exact (mem_due_iff wf).2 ⟨v, hv, hkey⟩
    · rename_i p hops
      have hmem₁ := Graph.mem_of_le (graph_le hle) hmem
      have hnode : e.graph.nodes[v]? = some (.gate p.1.1 p.1.2) :=
        (Graph.nodes_eq_of_le (graph_le hle) hmem.2).symm.trans
          (Graph.nodes_of_operands?_eq_some hops)
      obtain ⟨ha, hb⟩ := wf₁.operands_mem hmem₁ hops
      have hleft := rebuildNode_reimages (leafAt_settles time) p.1.1.var wf₁ ha hmemo
      rcases ih p.1.2.var p.2.2 (hv.right hnode) hleft.wf (le_trans hle hleft.grows) hleft.images hk
        with hk | hk
      · exact .inl hk
      · exact ih p.1.1.var p.2.1 (hv.left hnode) wf₁ hle hmemo hk

/-- The timed variables after an instance are those before it and those that it is made of. -/
theorem mem_timeline_rebuildNode_iff {e : Encoding} (wf : e.WellFormed) {l : Lit}
    (hl : l ∈ e.graph) (time : UInt64) {memo : Std.HashMap Nat Lit}
    (hmemo : Images (leafAt time) e memo) {k : Nat × UInt64} :
    k ∈ (rebuildNode (leafAt time) l.var memo e).2.timeline ↔
      k ∈ e.due l time ∨ k ∈ e.timeline := by
  have hmade := rebuildNode_reimages (leafAt_settles time) l.var wf hl hmemo
  have hroot : ∀ m ∈ [l], m ∈ e.graph := fun m hm => by rwa [List.mem_singleton.1 hm]
  have hnew := mem_timeline_of_rebuildNode (k := k) wf hl time (.root List.mem_cons_self) wf
    (le_refl e) hmemo
  refine ⟨hnew, ?_⟩
  generalize (rebuildNode (leafAt time) l.var memo e) = r at hmade ⊢
  rintro (hk | hk)
  · obtain ⟨v, hv, hkey⟩ := (mem_due_iff wf).1 hk
    obtain ⟨n, hn⟩ := hmade.image.beneath hmade.wf
      ((Graph.beneath_iff_of_le wf.graph (graph_le hmade.grows) hroot).2 hv)
    rw [← due?_of_le hmade.grows time (hv.mem wf.graph hroot)] at hkey
    exact hn.mem_timeline hmade.wf hkey
  · rw [Std.HashMap.mem_iff_isSome_getElem?, Option.isSome_iff_exists] at hk ⊢
    obtain ⟨m, hm⟩ := hk
    exact ⟨m, timeline_of_le wf hmade.wf hmade.grows hm⟩

/-- The timed variables there are stand for the variables and times of a list, each for one. -/
structure Allots (e : Encoding) (asked : List (Nat × UInt64)) : Prop where
  mem_iff : ∀ k, k ∈ e.timeline ↔ k ∈ asked
  again : ∀ (i : Nat) (t : UInt64) (l : Lit), e.timeline[(i, t)]? = some l →
    variableAt i t e = (l, e)
  injective : ∀ (k k' : Nat × UInt64) (l l' : Lit), e.timeline[k]? = some l →
    e.timeline[k']? = some l' → l.var = l'.var → k = k'
  apart : ∀ (k : Nat × UInt64) (l : Lit), e.timeline[k]? = some l → ∀ x ∈ e.vars,
    l.var ≠ x.current.var ∧ ∀ m : Lit, x.role = .state m → l.var ≠ m.var
  timed?_iff : ∀ (i : Nat) (t : UInt64) (l : Lit),
    e.timed? l = some (i, t) ↔ e.timeline[(i, t)]? = some (.pos l.var)
  timed?_variableAt : ∀ (i : Nat) (t : UInt64),
    (variableAt i t e).2.timed? (variableAt i t e).1 = some (i, t) ∧
      (variableAt i t e).2.timed? (variableAt i t e).1.not = some (i, t)

theorem timed?_eq_some_iff {e : Encoding} {l : Lit} {i : Nat} {t : UInt64} :
    e.timed? l = some (i, t) ↔ e.origins[l.var]? = some (.timed i t) := by
  rw [timed?]
  cases e.origins[l.var]? with
  | none => simp
  | some o => cases o <;> simp

theorem WellFormed.allots {e : Encoding} (wf : e.WellFormed) {asked : List (Nat × UInt64)}
    (hasked : ∀ k, k ∈ e.timeline ↔ k ∈ asked) : e.Allots asked where
  mem_iff := hasked
  again i t l hl := by rw [variableAt_eq, hl]
  injective k k' l l' hl hl' hvar := by
    have ho := ((wf.timeline k.1 k.2 l).1 hl).2
    rw [hvar, ((wf.timeline k'.1 k'.2 l').1 hl').2, Option.some.injEq, Origin.timed.injEq] at ho
    exact Prod.ext ho.1.symm ho.2.symm
  apart k l hl x hx := by
    have ho := ((wf.timeline k.1 k.2 l).1 hl).2
    obtain ⟨i, hi⟩ := Array.getElem?_of_mem hx
    obtain ⟨hcur, hnext⟩ := wf.positive i x hi
    refine ⟨fun hvar => ?_, fun m hm hvar => ?_⟩
    · rw [hvar, (wf.current i _).2 ⟨x, hi, Lit.eq_pos_of_negated hcur⟩] at ho
      cases ho
    · have hrole := hm.trans (congrArg Role.state (Lit.eq_pos_of_negated (hnext m hm)))
      rw [hvar, (wf.next i _).2 ⟨x, hi, hrole⟩] at ho
      cases ho
  timed?_iff i t l := by
    rw [timed?_eq_some_iff, wf.timeline]
    exact (and_iff_right rfl).symm
  timed?_variableAt i t := by
    have wf' := (variableAt_builds wf i t).wf
    have ho := ((wf'.timeline i t _).1 (timeline_variableAt i t)).2
    exact ⟨timed?_eq_some_iff.2 ho, timed?_eq_some_iff.2 ho⟩

/-- An assignment gives the forms of a variable the values that another gives to the variable at a
time and the one after it, and every other variable of the graph the same value. -/
structure Substitutes (e : Encoding) (time : UInt64) (ρ σ : Assignment) : Prop where
  current : ∀ x ∈ e.vars, ∀ l : Lit, e.timeline[(x.index, time)]? = some l →
    σ x.current.var = ρ l.var
  next : ∀ x ∈ e.vars, ∀ m : Lit, x.role = .state m → ∀ l : Lit,
    e.timeline[(x.index, time + 1)]? = some l → σ m.var = ρ l.var
  other : ∀ v : Nat, (∀ x ∈ e.vars, x.current.var ≠ v ∧ ∀ m : Lit, x.role = .state m → m.var ≠ v) →
    σ v = ρ v

theorem Substitutes.instant {e : Encoding} (wf : e.WellFormed) {time : UInt64} {ρ σ : Assignment}
    (h : e.Substitutes time ρ σ) : Instant time e ρ σ := by
  intro v _
  have hother : (∀ i, e.origins[v]? ≠ some (.current i)) → (∀ i, e.origins[v]? ≠ some (.next i)) →
      σ v = ρ v := by
    intro hcur hnext
    refine h.other v fun x hx => ?_
    obtain ⟨i, hi⟩ := Array.getElem?_of_mem hx
    obtain ⟨hpos, hposn⟩ := wf.positive i x hi
    refine ⟨?_, fun m hm => ?_⟩
    · rintro rfl
      exact hcur i ((wf.current i _).2 ⟨x, hi, Lit.eq_pos_of_negated hpos⟩)
    · rintro rfl
      exact hnext i ((wf.next i _).2
        ⟨x, hi, hm.trans (congrArg Role.state (Lit.eq_pos_of_negated (hposn m hm)))⟩)
  cases ho : e.origins[v]? with
  | none => exact hother (by simp [ho]) (by simp [ho])
  | some o =>
    cases o with
    | current i =>
      intro l hl
      obtain ⟨x, hx, hcur⟩ := (wf.current i v).1 ho
      rw [← wf.index i x hx] at hl
      have hval := h.current x (Array.mem_of_getElem? hx) l hl
      rwa [hcur] at hval
    | next i =>
      intro l hl
      obtain ⟨x, hx, hrole⟩ := (wf.next i v).1 ho
      rw [← wf.index i x hx] at hl
      exact h.next x (Array.mem_of_getElem? hx) (.pos v) hrole l hl
    | timed i t => exact hother (by simp [ho]) (by simp [ho])

theorem exists_substitutes {e : Encoding} (wf : e.WellFormed) (time : UInt64) (ρ : Assignment) :
    ∃ σ, e.Substitutes time ρ σ := by
  refine ⟨fun v => ((e.due? time v).bind (e.timeline[·]?)).elim (ρ v) fun l => ρ l.var, ?_, ?_, ?_⟩
  · intro x hx l hl
    obtain ⟨i, hi⟩ := Array.getElem?_of_mem hx
    have ho := (wf.current i _).2 ⟨x, hi, Lit.eq_pos_of_negated (wf.positive i x hi).1⟩
    rw [wf.index i x hi] at hl
    simp [due?, ho, hl]
  · intro x hx m hm l hl
    obtain ⟨i, hi⟩ := Array.getElem?_of_mem hx
    have hrole := hm.trans
      (congrArg Role.state (Lit.eq_pos_of_negated ((wf.positive i x hi).2 m hm)))
    have ho := (wf.next i _).2 ⟨x, hi, hrole⟩
    rw [wf.index i x hi] at hl
    simp [due?, ho, hl]
  · intro v hv
    have hnone : e.due? time v = none := by
      cases ho : e.origins[v]? with
      | none => simp [due?, ho]
      | some o =>
        cases o with
        | current i =>
          obtain ⟨x, hx, hcur⟩ := (wf.current i v).1 ho
          exact absurd (by rw [hcur]; rfl) (hv x (Array.mem_of_getElem? hx)).1
        | next i =>
          obtain ⟨x, hx, hrole⟩ := (wf.next i v).1 ho
          exact absurd rfl ((hv x (Array.mem_of_getElem? hx)).2 _ hrole)
        | timed i t => simp [due?, ho]
    rw [hnone]
    rfl

end Encoding

open Encoding

/-- An encoding with what nodes have been rebuilt into so far, by time. -/
structure Ledger where
  encoding : Encoding
  instances : Std.HashMap UInt64 (Std.HashMap Nat Lit)

namespace Ledger

/-- A construction that remembers nothing. -/
def pass {α : Type} (m : StateM Encoding α) : StateM Ledger α := fun s =>
  ((m s.encoding).1, { s with encoding := (m s.encoding).2 })

/-- An expression at a time, where what was rebuilt for that time before is used again. -/
def instantiate (l : Lit) (time : UInt64) : StateM Ledger Lit := fun s =>
  let r := rebuildNode (leafAt time) l.var (s.instances.getD time {}) s.encoding
  (r.1.1.flipIf l.negated, ⟨r.2, s.instances.insert time r.1.2⟩)

/-- What can be asked of an encoding. -/
inductive Call (α : Type) where
  | declare (isInput : Bool) (name : String)
  | convert (permitNext : Bool) (x : SExpr α)
  | construct (o : Graph.Operation)
  | variableAt (index : Nat) (time : UInt64)
  | instantiate (l : Lit) (time : UInt64)

namespace Call

variable {α : Type}

def arguments : Call α → List Lit
  | construct o => o.arguments
  | instantiate l _ => [l]
  | _ => []

/-- What a call leads to, whether or not it succeeds. -/
def run : Call α → Ledger → Ledger
  | declare isInput name, s => (pass (Encoding.declare isInput name) s).2
  | convert permitNext x, s => (pass (condition permitNext x).run s).2
  | construct o, s => (pass (onGraph o.run) s).2
  | variableAt index time, s => (pass (Encoding.variableAt index time) s).2
  | instantiate l time, s => (Ledger.instantiate l time s).2

/-- The variables with their times that a call asks for. -/
def asks : Call α → Encoding → List (Nat × UInt64)
  | variableAt index time, _ => [(index, time)]
  | instantiate l time, e => e.due l time
  | _, _ => []

end Call

/-- The ledgers that a series of calls leads to, each about expressions there are, with all that was
asked for. -/
inductive History (α : Type) : Ledger → List (Nat × UInt64) → Prop where
  | start : History α ⟨∅, {}⟩ []
  | step {s : Ledger} {asked : List (Nat × UInt64)} (c : Call α) (hs : History α s asked)
    (hargs : ∀ l ∈ c.arguments, l ∈ s.encoding.graph) :
    History α (c.run s) (c.asks s.encoding ++ asked)

/-- A ledger remembers images only, and its timed variables are those asked for. -/
structure Sound (s : Ledger) (asked : List (Nat × UInt64)) : Prop where
  wf : s.encoding.WellFormed
  asked : ∀ k, k ∈ s.encoding.timeline ↔ k ∈ asked
  images : ∀ t, Images (leafAt t) s.encoding (s.instances.getD t {})

theorem Sound.grow {s : Ledger} {asked asked' : List (Nat × UInt64)} (hs : Sound s asked)
    {e : Encoding} (wf : e.WellFormed) (hle : s.encoding ≤ e)
    (hasked : ∀ k, k ∈ e.timeline ↔ k ∈ asked') : Sound { s with encoding := e } asked' :=
  ⟨wf, hasked, fun t => (hs.images t).of_le (leafAt_settles t) hs.wf wf hle⟩

theorem Sound.instantiate {s : Ledger} {asked : List (Nat × UInt64)} (hs : Sound s asked) {l : Lit}
    (hl : l ∈ s.encoding.graph) (time : UInt64) :
    Sound (instantiate l time s).2 (s.encoding.due l time ++ asked) := by
  have hmade := rebuildNode_reimages (leafAt_settles time) l.var hs.wf hl (hs.images time)
  refine ⟨hmade.wf, fun k => ?_, fun t => ?_⟩
  · rw [List.mem_append, ← hs.asked k]
    exact mem_timeline_rebuildNode_iff hs.wf hl time (hs.images time)
  · change Images _ _ ((s.instances.insert time _).getD t {})
    rw [Std.HashMap.getD_insert]
    split
    · rename_i ht
      obtain rfl := eq_of_beq ht
      exact hmade.images
    · exact (hs.images t).of_le (leafAt_settles t) hs.wf hmade.wf hmade.grows

theorem Sound.step {α : Type} {s : Ledger} {asked : List (Nat × UInt64)} (hs : Sound s asked)
    (c : Call α) (hargs : ∀ l ∈ c.arguments, l ∈ s.encoding.graph) :
    Sound (c.run s) (c.asks s.encoding ++ asked) := by
  cases c with
  | declare isInput name =>
    obtain ⟨wf, hle⟩ := declare_grows hs.wf isInput name
    refine hs.grow wf hle fun k => ?_
    rw [timeline_declare]
    exact hs.asked k
  | convert permitNext x =>
    obtain ⟨hx, -⟩ := condition_attempts hs.wf permitNext x
    refine hs.grow hx.wf hx.grows fun k => ?_
    rw [timeline_condition]
    exact hs.asked k
  | construct o =>
    have ho := o.run_builds hs.wf.graph hargs
    exact hs.grow (hs.wf.of_graph ho.wf ho.grows) (le_of_graph_le ho.grows) hs.asked
  | variableAt index time =>
    have hmade := variableAt_builds hs.wf index time
    refine hs.grow hmade.wf hmade.grows fun k => ?_
    rw [mem_timeline_variableAt, hs.asked k]
    exact List.mem_cons.symm
  | instantiate l time => exact hs.instantiate (hargs l List.mem_cons_self) time

theorem History.sound {α : Type} {s : Ledger} {asked : List (Nat × UInt64)}
    (h : History α s asked) : Sound s asked := by
  induction h with
  | start =>
    refine ⟨wellFormed_empty, fun k => ?_, fun t => ?_⟩
    · change k ∈ (∅ : Std.HashMap (Nat × UInt64) Lit) ↔ k ∈ []
      simp
    · rw [Std.HashMap.getD_empty]
      exact images_empty _ _
  | step c _ hargs ih => exact ih.step c hargs

/-- Instances are substitution, whatever was asked for before, and with or without a memory of what
was rebuilt before. -/
theorem History.instantiate_substitutes {α : Type} {s : Ledger} {asked : List (Nat × UInt64)}
    (h : History α s asked) {l : Lit} (hl : l ∈ s.encoding.graph) (time : UInt64) :
    let r := instantiate l time s
    (r.1, r.2.encoding) = Encoding.instantiate l time s.encoding ∧
    (∀ ρ, (∃ σ, r.2.encoding.Substitutes time ρ σ) ∧
      ∀ σ, r.2.encoding.Substitutes time ρ σ →
        r.2.encoding.graph.eval ρ r.1 = s.encoding.graph.eval σ l) ∧
    s.encoding.Allots asked := by
  have hs := h.sound
  have hsame : ((instantiate l time s).1, (instantiate l time s).2.encoding) =
      Encoding.instantiate l time s.encoding := by
    obtain ⟨hlit, henc⟩ := rebuildNode_congr (leafAt_settles time) l.var hs.wf hl (hs.images time)
      (images_empty _ _)
    exact Prod.ext (congrArg (Lit.flipIf l.negated) hlit) henc
  have hmade := instantiate_rebuilds hs.wf hl time
  rw [← hsame] at hmade
  refine ⟨hsame, fun ρ => ⟨exists_substitutes hmade.wf time ρ, fun σ hσ => ?_⟩,
    hs.wf.allots hs.asked⟩
  exact hmade.eval ρ σ (hσ.instant hmade.wf)

/-- The next form of a variable at the time before one at which its negation was asked for. -/
theorem History.instantiate_substitutes_next :
    ∃ (s : Ledger) (asked : List (Nat × UInt64)), History Unit s asked ∧ (0, 3) ∈ asked ∧
      Lit.pos 3 ∈ s.encoding.graph ∧ s.encoding.origins[3]? = some (.next 0) ∧
      let r := instantiate (.pos 3) 2 s
      (r.1, r.2.encoding) = Encoding.instantiate (.pos 3) 2 s.encoding ∧
      (∀ ρ, (∃ σ, r.2.encoding.Substitutes 2 ρ σ) ∧
        ∀ σ, r.2.encoding.Substitutes 2 ρ σ →
          r.2.encoding.graph.eval ρ r.1 = s.encoding.graph.eval σ (.pos 3)) ∧
      s.encoding.Allots asked := by
  have hdeclared := History.start.step (.declare (α := Unit) false "p") nofun
  have hcurrent : ∀ l ∈ (Call.instantiate (α := Unit) ⟨2, true⟩ 3).arguments,
      l ∈ ((Call.declare (α := Unit) false "p").run ⟨∅, {}⟩).encoding.graph := by
    rintro l (_ | ⟨_, hl⟩)
    · exact ⟨by decide, by decide⟩
    · cases hl
  have hthen := hdeclared.step _ hcurrent
  have hgrows := (rebuildNode_reimages (leafAt_settles 3) 2 hdeclared.sound.wf
    (hcurrent ⟨2, true⟩ List.mem_cons_self) (hdeclared.sound.images 3)).grows
  have wf := hdeclared.sound.wf
  have hnext := Graph.mem_of_le (graph_le hgrows) (l := .pos 3) ⟨by decide, by decide⟩
  have horigin := origin_of_le wf hgrows ((wf.next 0 3).2 ⟨_, rfl, rfl⟩)
  refine ⟨_, _, hthen, ?_, hnext, horigin, hthen.instantiate_substitutes hnext 2⟩
  refine List.mem_append_left _ ((mem_due_iff wf).2 ⟨2, .root List.mem_cons_self, ?_⟩)
  rw [due?, (wf.current 0 2).2 ⟨_, rfl, rfl⟩]
end Ledger

end Lasso
