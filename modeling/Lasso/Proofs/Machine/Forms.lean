import Lasso.Proofs.Graph.Cone
import Lasso.Proofs.Machine.Ledger

/-! # Which forms of variables expressions mention

A condition mentions current forms of variables, and next forms only where these are permitted.
Moved to a time it mentions variables at that time, and one step later for a next form.  This is
about what expressions are built from and not about what they mean.
-/

namespace Lasso

set_option autoImplicit false

namespace Origin

/-- A form in which conditions are written down. -/
def IsForm (permitNext : Bool) : Origin → Prop
  | .current _ => True
  | .next _ => permitNext = true
  | .timed _ _ => False

/-- A form that lies at certain times once it is moved to a time. -/
def Due (T : UInt64 → Prop) (time : UInt64) : Origin → Prop
  | .current _ => T time
  | .next _ => T (time + 1)
  | .timed _ _ => False

/-- One of the first variables at certain times. -/
def Within (count : Nat) (T : UInt64 → Prop) : Origin → Prop
  | .timed i t => i < count ∧ T t
  | _ => False

variable {T : UInt64 → Prop} {time : UInt64}

theorem IsForm.due (hnow : T time) : ∀ {o : Origin}, o.IsForm false → o.Due T time
  | .current _, _ => hnow

theorem IsForm.due_next (hnow : T time) (hnext : T (time + 1)) {p : Bool} :
    ∀ {o : Origin}, o.IsForm p → o.Due T time
  | .current _, _ => hnow
  | .next _, _ => hnext

end Origin

namespace Encoding

/-- An expression is built over boolean variables that stand for something of a kind. -/
def Rests (e : Encoding) (Q : Origin → Prop) (l : Lit) : Prop :=
  e.graph.Over (fun v => ∃ o, e.origins[v]? = some o ∧ Q o) l.var

section

variable {e e' : Encoding} {Q R : Origin → Prop} {l : Lit}

theorem rests_truth (e : Encoding) (Q : Origin → Prop) : e.Rests Q Graph.truth := .constant

theorem rests_falsity (e : Encoding) (Q : Origin → Prop) : e.Rests Q Graph.falsity := .constant

theorem Rests.mono (h : e.Rests Q l) (hQR : ∀ o, Q o → R o) : e.Rests R l :=
  Graph.Over.mono h (le_refl _) fun _ ⟨o, ho, hQ⟩ => ⟨o, ho, hQR o hQ⟩

variable (wf : e.WellFormed)

include wf

theorem Rests.of_le (h : e.Rests Q l) (hle : e ≤ e') : e'.Rests Q l :=
  Graph.Over.mono h (graph_le hle) fun _ ⟨o, ho, hQ⟩ => ⟨o, origin_of_le wf hle ho, hQ⟩

theorem Rests.mem (h : e.Rests Q l) : l ∈ e.graph := Graph.Over.mem wf.graph h

theorem rests_origin {v : Nat} {o : Origin} (ho : e.origins[v]? = some o) (hQ : Q o) :
    e.Rests Q (.pos v) :=
  .leaf (wf.origins v o ho) ⟨o, ho, hQ⟩

theorem Rests.of_mem_support (h : e.Rests Q l) {m : Lit} (hm : m ∈ e.graph.support l) :
    ∃ o, e.origins[m.var]? = some o ∧ Q o :=
  Graph.Over.of_mem_support wf.graph h hm

theorem onGraph_rests (o : Graph.Operation) (ho : o ≠ .input)
    (hargs : ∀ a ∈ o.arguments, e.Rests Q a) :
    (onGraph o.run e).2.Rests Q (onGraph o.run e).1 :=
  o.run_over ho wf.graph hargs

theorem join_rests {join : Lit → Lit → StateM Graph Lit} (hjoin : Graph.Mixes join) {a b : Lit}
    (ha : e.Rests Q a) (hb : e.Rests Q b) :
    (onGraph (join a b) e).2.Rests Q (onGraph (join a b) e).1 :=
  hjoin.stays wf.graph ha hb

/-- The image of an expression is built over the images of what the expression is built over. -/
theorem Image.rests {leaf : Nat → StateM Encoding Lit}
    (hleaf : ∀ {v : Nat} {o : Origin} {m : Lit}, e.origins[v]? = some o → Q o →
      leaf v e = (m, e) → e.Rests R m)
    {v : Nat} {m : Lit} (h : Image leaf e v m) (hv : e.Rests Q (.pos v)) : e.Rests R m := by
  induction h with
  | one => exact rests_truth e R
  | free hone hops hmade =>
    cases hv with
    | constant => exact absurd rfl hone
    | leaf _ hv =>
      obtain ⟨o, ho, hQ⟩ := hv
      exact hleaf ho hQ hmade
    | gate hnode _ _ =>
      obtain ⟨_, hsome⟩ := wf.graph.operands?_eq_some hnode
      exact absurd (hops.symm.trans hsome) (by simp)
  | @gate v a b m p _ hops _ _ hmade iha ihb =>
    obtain ⟨ha, hb⟩ := Graph.Over.operands wf.graph hv (Graph.nodes_of_operands?_eq_some hops)
    have hgate := join_rests wf Graph.and_mixes (a := a.flipIf p.1.1.negated)
      (b := b.flipIf p.1.2.negated) (iha ha) (ihb hb)
    rw [hmade] at hgate
    exact hgate

end

theorem rebuild_rests {leaf : Nat → StateM Encoding Lit} (hsettles : Settles leaf)
    {Q R : Origin → Prop} {e : Encoding} (wf : e.WellFormed) {l : Lit} (hl : e.Rests Q l)
    (hleaf : ∀ {v : Nat} {o : Origin} {m : Lit}, (rebuild leaf l e).2.origins[v]? = some o → Q o →
      leaf v (rebuild leaf l e).2 = (m, (rebuild leaf l e).2) → (rebuild leaf l e).2.Rests R m) :
    (rebuild leaf l e).2.Rests R (rebuild leaf l e).1 := by
  have hmade := rebuildNode_reimages hsettles l.var wf (hl.mem wf) (images_empty leaf e)
  have hv : e.Rests Q (.pos l.var) := hl
  exact hmade.image.rests hmade.wf hleaf (hv.of_le wf hmade.grows)

section

variable {e : Encoding} (wf : e.WellFormed) {n : Nat} (hn : e.vars.size = n) {T : UInt64 → Prop}

include wf hn

omit hn in
theorem variableAt_rests {i : Nat} {t : UInt64} (hi : i < n) (ht : T t) :
    (variableAt i t e).2.Rests (Origin.Within n T) (variableAt i t e).1 := by
  have wf' := (variableAt_builds wf i t).wf
  obtain ⟨hpos, ho⟩ := (wf'.timeline i t _).1 (timeline_variableAt i t)
  rw [Lit.eq_pos_of_negated hpos]
  exact rests_origin wf' ho ⟨hi, ht⟩

theorem instantiate_rests {l : Lit} {time : UInt64} (hl : e.Rests (Origin.Due T time) l) :
    (instantiate l time e).2.Rests (Origin.Within n T) (instantiate l time e).1 := by
  have hmade := instantiate_remakes wf (hl.mem wf) time
  have hn' : (instantiate l time e).2.vars.size = n := hmade.vars ▸ hn
  refine rebuild_rests (leafAt_settles time) wf hl fun {v o m} ho hdue hleaf => ?_
  have hat : ∀ {i : Nat} {t : UInt64} {x : Variable},
      (instantiate l time e).2.vars[i]? = some x → T t →
      variableAt i t (instantiate l time e).2 = (m, (instantiate l time e).2) →
      (instantiate l time e).2.Rests (Origin.Within n T) m := by
    intro i t x hx ht heq
    have hi := hn' ▸ (Array.getElem?_eq_some_iff.1 hx).1
    have hrests := variableAt_rests hmade.wf hi ht
    rw [heq] at hrests
    exact hrests
  rw [leafAt_eq, ho] at hleaf
  cases o with
  | current i =>
    obtain ⟨x, hx, -⟩ := (hmade.wf.current i v).1 ho
    exact hat hx hdue hleaf
  | next i =>
    obtain ⟨x, hx, -⟩ := (hmade.wf.next i v).1 ho
    exact hat hx hdue hleaf
  | timed i t => exact hdue.elim

theorem joinFrom_rests {join : Lit → Lit → StateM Graph Lit} (hjoin : Graph.Mixes join) {l : Lit}
    (hl : e.Rests (Origin.IsForm false) l) (count : Nat) {time : UInt64}
    (hT : ∀ t ∈ instants time count, T t) {result : Lit}
    (hresult : e.Rests (Origin.Within n T) result) :
    (joinFrom join l count time result e).2.Rests (Origin.Within n T)
      (joinFrom join l count time result e).1 := by
  induction count generalizing e time result with
  | zero => exact hresult
  | succ count ih =>
    have htime := hT time List.mem_cons_self
    have hnow := instantiate_remakes wf (hl.mem wf) time
    have hdue := instantiate_rests wf hn (hl.mono fun _ ho => ho.due htime)
    have hresult' := hresult.of_le wf hnow.grows
    have hboth := join_remakes hnow.wf hjoin.toRepeatable (hresult'.mem hnow.wf) hnow.there
    refine ih hboth.wf ?_ (hl.of_le wf (le_trans hnow.grows hboth.grows))
      (fun t ht => hT t (List.mem_cons_of_mem time ht)) (join_rests hnow.wf hjoin hresult' hdue)
    exact (congrArg Array.size (hboth.vars.trans hnow.vars)).trans hn

theorem sometime_rests {l : Lit} (hl : e.Rests (Origin.IsForm false) l) {first last : UInt64}
    (hT : ∀ t, first ≤ t → t ≤ last → T t) :
    (sometime l first last e).2.Rests (Origin.Within n T) (sometime l first last e).1 := by
  refine joinFrom_rests wf hn Graph.or_mixes hl _ (fun t ht => ?_) (rests_falsity e _)
  obtain ⟨hfirst, hlast⟩ := mem_instants_intervalLength_iff.1 ht
  exact hT t hfirst hlast

end

theorem leafNext_settles : Settles leafNext where
  wf v wf := leafNext_leaves.wf v wf
  grows v wf := leafNext_leaves.grows v wf
  mem {e v} wf hv := by
    rw [leafNext_eq]
    rcases wf.nextForm_cases v with h | ⟨i, w, -, h, hw⟩
    · exact h ▸ hv
    · exact h ▸ wf.pos_mem hw
  again {e e' v} wf _ hv hle := by
    rw [leafNext_eq] at hle
    have hsame : e'.nextForm v = e.nextForm v := nextForm_of_le wf hle hv.2
    rw [leafNext_eq, leafNext_eq, hsame]

section

variable {e : Encoding} (wf : e.WellFormed)

include wf

theorem shift_rests {l m : Lit} (hl : e.Rests (Origin.IsForm true) l)
    (hm : (shift l e).1 = .ok m) : (shift l e).2.Rests (Origin.IsForm true) m := by
  have hrests : (rebuild leafNext l e).2.Rests (Origin.IsForm true) (rebuild leafNext l e).1 := by
    refine rebuild_rests leafNext_settles wf hl fun {v o k} ho hform hleaf => ?_
    have wf' := (rebuild_rebuilds leafNext_leaves wf (hl.mem wf)).wf
    rw [leafNext_eq, Prod.mk.injEq] at hleaf
    rw [← hleaf.1]
    rcases wf'.nextForm_cases v with h | ⟨i, w, -, h, hw⟩
    · rw [h]
      exact rests_origin wf' ho hform
    · rw [h]
      exact rests_origin wf' hw rfl
  rw [shift_eq] at hm ⊢
  dsimp only at hm ⊢
  split at hm
  · cases hm
  · cases hm
    exact hrests

omit wf in
theorem connect_cases {c : Connective} {p : Bool} {ls : List Lit} {l : Lit}
    (h : ((connect c p ls).run e).1 = .ok l) :
    (∃ a ∈ ls, (connect c p ls).run e = (.ok a.not, e)) ∨
    (p = true ∧ ∃ a ∈ ls, (shift a e).1 = .ok l ∧ ((connect c p ls).run e).2 = (shift a e).2) ∨
    ∃ o : Graph.Operation, o ≠ .input ∧ o.arguments = ls ∧
      (connect c p ls).run e = (.ok (onGraph o.run e).1, (onGraph o.run e).2) := by
  by_cases hnext : ∃ a, c = .next ∧ ls = [a]
  · obtain ⟨a, rfl, rfl⟩ := hnext
    rw [connect_next_eq] at h ⊢
    cases p with
    | false => cases h
    | true =>
      rw [if_pos rfl] at h ⊢
      cases hshift : (shift a e).1 with
      | error err =>
        rw [hshift] at h
        cases h
      | ok m =>
        rw [hshift] at h
        cases h
        exact .inr (.inl ⟨rfl, a, by simp, hshift, rfl⟩)
  have hgates : ∀ {m : Attempt Malformed Lit} (o : Graph.Operation), o ≠ .input →
      m.run e = (.ok (onGraph o.run e).1, (onGraph o.run e).2) →
      ∃ o' : Graph.Operation, o' ≠ .input ∧ o'.arguments = o.arguments ∧
        m.run e = (.ok (onGraph o'.run e).1, (onGraph o'.run e).2) :=
    fun o ho hm => ⟨o, ho, rfl, hm⟩
  revert h hnext
  fun_cases connect c p ls
  case case1 a => exact fun _ _ => .inl ⟨a, by simp, rfl⟩
  case case2 a _ _ => exact fun _ hnext => absurd ⟨a, rfl, rfl⟩ hnext
  case case3 a _ _ => exact fun _ hnext => absurd ⟨a, rfl, rfl⟩ hnext
  case case4 a b => exact fun _ _ => .inr (.inr (hgates (.xor a b) (by simp) rfl))
  case case5 a b => exact fun _ _ => .inr (.inr (hgates (.implies a b) (by simp) rfl))
  case case6 a b => exact fun _ _ => .inr (.inr (hgates (.iff a b) (by simp) rfl))
  case case7 a b d => exact fun _ _ => .inr (.inr (hgates (.ite a b d) (by simp) rfl))
  case case8 a as => exact fun _ _ => .inr (.inr (hgates (.all (a :: as)) (by simp) rfl))
  case case9 a as => exact fun _ _ => .inr (.inr (hgates (.any (a :: as)) (by simp) rfl))
  case case10 => exact fun h => by cases h
  case case11 => exact fun h => by cases h

theorem connect_rests {c : Connective} {p : Bool} {ls : List Lit}
    (hls : ∀ a ∈ ls, e.Rests (Origin.IsForm p) a) {l : Lit}
    (h : ((connect c p ls).run e).1 = .ok l) :
    ((connect c p ls).run e).2.Rests (Origin.IsForm p) l := by
  rcases connect_cases h with ⟨a, ha, heq⟩ | ⟨rfl, a, ha, hshift, heq⟩ | ⟨o, ho, rfl, heq⟩
  · rw [heq] at h ⊢
    cases h
    exact hls a ha
  · rw [heq]
    exact shift_rests wf (hls a ha) hshift
  · rw [heq] at h ⊢
    cases h
    exact onGraph_rests wf o ho hls

theorem conditionName?_rests {name : String} {l : Lit} (hl : e.conditionName? name = some l)
    (p : Bool) : e.Rests (Origin.IsForm p) l := by
  rcases conditionName?_cases name with ⟨b, hb, -⟩ | ⟨hvar, -⟩
  · rw [hb] at hl
    cases b <;> cases hl <;> exact .constant
  · rw [hvar, Option.map_eq_some_iff] at hl
    obtain ⟨x, hx, rfl⟩ := hl
    obtain ⟨i, hi, hxi⟩ := Array.getElem_of_mem (Array.mem_of_find?_eq_some hx)
    have hxi' : e.vars[i]? = some x := Array.getElem?_eq_some_iff.2 ⟨hi, hxi⟩
    have hpos := Lit.eq_pos_of_negated (wf.positive i x hxi').1
    rw [hpos]
    exact rests_origin wf ((wf.current i x.current.var).2 ⟨x, hxi', hpos⟩) trivial

end

section

variable {α : Type}

mutual

/-- A condition mentions current forms, and next forms only where these are permitted. -/
theorem condition_rests {e : Encoding} (wf : e.WellFormed) (p : Bool) : (x : SExpr α) →
    ∀ l : Lit, ((condition p x).run e).1 = .ok l →
      ((condition p x).run e).2.Rests (Origin.IsForm p) l
  | .symbol note name, l, h => by
    rw [condition_symbol_eq] at h ⊢
    cases hname : e.conditionName? name with
    | none =>
      rw [hname] at h
      cases h
    | some m =>
      rw [hname] at h
      cases h
      exact conditionName?_rests wf hname p
  | .list note (.symbol note' name :: args), l, h => by
    obtain ⟨hwf, -⟩ := conditions_attempts wf p args
    have hargs := conditions_rests wf p args
    rw [condition_list_eq] at h ⊢
    generalize (conditions p args).run e = r at hwf hargs h ⊢
    obtain ⟨r, e₁⟩ := r
    cases r with
    | error err => cases h
    | ok ls =>
      cases hc : Connective.ofName? name with
      | none =>
        rw [hc] at h
        cases h
      | some c =>
        rw [hc] at h
        exact connect_rests hwf (hargs ls rfl) (ok_of_mapError h)
  | .list _ [], l, h => by
    rw [condition_nil_eq] at h
    cases h
  | .list _ (.list _ _ :: _), l, h => by
    rw [condition_nested_eq] at h
    cases h

theorem conditions_rests {e : Encoding} (wf : e.WellFormed) (p : Bool) : (xs : List (SExpr α)) →
    ∀ ls : List Lit, ((conditions p xs).run e).1 = .ok ls →
      ∀ l ∈ ls, ((conditions p xs).run e).2.Rests (Origin.IsForm p) l
  | [], ls, h => by
    rw [conditions] at h
    cases h
    simp
  | x :: xs, ls, h => by
    have hx := (condition_attempts wf p x).1
    have hrests := condition_rests wf p x
    rw [conditions_cons_eq] at h ⊢
    generalize (condition p x).run e = r at hx hrests h ⊢
    obtain ⟨r, e₁⟩ := r
    cases r with
    | error err => cases h
    | ok l =>
      obtain ⟨-, hgrows, -⟩ := conditions_attempts hx.wf p xs
      have hrest := conditions_rests hx.wf p xs
      dsimp only at h ⊢
      cases hls : ((conditions p xs).run e₁).1 with
      | error err =>
        rw [hls] at h
        cases h
      | ok ms =>
        rw [hls] at h
        cases h
        intro m hm
        rcases List.mem_cons.1 hm with rfl | hm
        · exact (hrests _ rfl).of_le hx.wf hgrows
        · exact hrest ms hls m hm

end

end

end Encoding

namespace Machine

open Encoding

/-- Only the transition constraint mentions next forms. -/
structure Formed (m : Machine) (e : Encoding) : Prop where
  init : e.Rests (Origin.IsForm false) m.init
  invar : e.Rests (Origin.IsForm false) m.invar
  trans : e.Rests (Origin.IsForm true) m.trans
  fairness : ∀ l ∈ m.fairness, e.Rests (Origin.IsForm false) l

theorem formed_empty (e : Encoding) : ({} : Machine).Formed e where
  init := rests_truth e _
  invar := rests_truth e _
  trans := rests_truth e _
  fairness l hl := by simp at hl

theorem Formed.of_le {m : Machine} {e e' : Encoding} (wf : e.WellFormed) (hle : e ≤ e')
    (h : m.Formed e) : m.Formed e' where
  init := h.init.of_le wf hle
  invar := h.invar.of_le wf hle
  trans := h.trans.of_le wf hle
  fairness l hl := (h.fairness l hl).of_le wf hle

section

variable {m : Machine} {e : Encoding} (wf : e.WellFormed) (hm : m.Formed e) {n : Nat}
  (hn : e.vars.size = n) {T : UInt64 → Prop}

include wf hm hn

/-- The last step is at the time after the last transition. -/
theorem unrollFrom_rests (count : Nat) {time : UInt64} (hT : ∀ t ∈ instants time (count + 1), T t)
    {result : Lit} (hresult : e.Rests (Origin.Within n T) result) :
    (m.unrollFrom count time result e).2.Rests (Origin.Within n T)
      (m.unrollFrom count time result e).1 := by
  induction count generalizing e time result with
  | zero => exact hresult
  | succ count ih =>
    have htime := hT time List.mem_cons_self
    have hnext := hT (time + 1) (List.mem_cons_of_mem time List.mem_cons_self)
    have htrans := instantiate_remakes wf (hm.trans.mem wf) time
    have hwithin := instantiate_rests wf hn (hm.trans.mono fun _ ho => ho.due_next htime hnext)
    have hm₁ := hm.of_le wf htrans.grows
    have hn₁ := (congrArg Array.size htrans.vars).trans hn
    have hinvar := instantiate_remakes htrans.wf (hm₁.invar.mem htrans.wf) (time + 1)
    have hwithin' := instantiate_rests htrans.wf hn₁ (hm₁.invar.mono fun _ ho => ho.due hnext)
    have hstep := and_remakes hinvar.wf (hinvar.mem htrans.there) hinvar.there
    have hand := join_rests hinvar.wf Graph.and_mixes (hwithin.of_le htrans.wf hinvar.grows) hwithin'
    have hresult' := hresult.of_le wf
      (le_trans htrans.grows (le_trans hinvar.grows hstep.grows))
    have hboth := and_remakes hstep.wf (hresult'.mem hstep.wf) hstep.there
    have hle := le_trans (le_trans htrans.grows hinvar.grows) (le_trans hstep.grows hboth.grows)
    have hn' := (congrArg Array.size
      (hboth.vars.trans (hstep.vars.trans (hinvar.vars.trans htrans.vars)))).trans hn
    exact ih hboth.wf (hm.of_le wf hle) hn' (fun t ht => hT t (List.mem_cons_of_mem time ht))
      (join_rests hstep.wf Graph.and_mixes hresult' hand)

theorem unroll_rests {first last : UInt64} (hle : first ≤ last)
    (hT : ∀ t, first ≤ t → t ≤ last → T t) :
    (m.unroll first last e).2.Rests (Origin.Within n T) (m.unroll first last e).1 := by
  have hcount : (if first < last then (last - first).toNat else 0) + 1 =
      intervalLength first last := by
    rw [intervalLength, if_pos hle]
    split
    · rfl
    · rename_i hlt
      rw [UInt64.le_antisymm hle (UInt64.not_lt.1 hlt), UInt64.sub_self]
      rfl
  have hinvar := instantiate_remakes wf (hm.invar.mem wf) first
  have hwithin := instantiate_rests wf hn
    (hm.invar.mono fun _ ho => ho.due (hT first (UInt64.le_refl _) hle))
  refine unrollFrom_rests hinvar.wf (hm.of_le wf hinvar.grows)
    ((congrArg Array.size hinvar.vars).trans hn) _ (fun t ht => ?_) hwithin
  rw [hcount] at ht
  obtain ⟨hfirst, hlast⟩ := mem_instants_intervalLength_iff.1 ht
  exact hT t hfirst hlast

theorem path_rests (hover : m.Over e) {length : UInt64} (hT : ∀ t ≤ length, T t) :
    (m.path length e).2.Rests (Origin.Within n T) (m.path length e).1 := by
  have hzero : (0 : UInt64) ≤ length := UInt64.le_iff_toNat_le.2 (Nat.zero_le _)
  have hinit := instantiate_remakes wf (hm.init.mem wf) 0
  have hwithin := instantiate_rests wf hn (hm.init.mono fun _ ho => ho.due (hT 0 hzero))
  have hsteps := unroll_remakes hinit.wf (hover.of_le wf hinit.grows) 0 length
  have hwithin' := unroll_rests hinit.wf (hm.of_le wf hinit.grows)
    ((congrArg Array.size hinit.vars).trans hn) hzero fun t _ ht => hT t ht
  exact join_rests hsteps.wf Graph.and_mixes (hwithin.of_le hinit.wf hsteps.grows) hwithin'

end

end Machine

end Lasso
