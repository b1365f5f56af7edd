import Lasso.Proofs.Graph.Likeness
import Lasso.Proofs.Machine.Forms

/-! # Conversions with the same declarations

Two encodings with the same declarations may differ in everything that was converted or moved in
time.  A condition is converted in both or in neither, and then into expressions that are alike.
-/

namespace Lasso

set_option autoImplicit false

/-- Two attempts both fail, or both succeed with results that are related. -/
inductive Both {ε α : Type} (R : α → α → Prop) : Except ε α → Except ε α → Prop where
  | ok {a b : α} (hab : R a b) : Both R (.ok a) (.ok b)
  | error (err err' : ε) : Both R (.error err) (.error err')

namespace Both

variable {ε δ α β : Type} {R : α → α → Prop} {S : β → β → Prop} {x y : Except ε α}

theorem mapError (h : Both R x y) (blame blame' : ε → δ) :
    Both R (x.mapError blame) (y.mapError blame') := by
  cases h with
  | ok hab => exact .ok hab
  | error => exact .error _ _

theorem map (h : Both R x y) {f f' : α → β} (hf : ∀ a b, R a b → S (f a) (f' b)) :
    Both S (x.map f) (y.map f') := by
  cases h with
  | ok hab => exact .ok (hf _ _ hab)
  | error => exact .error _ _

end Both

namespace Encoding

/-- The names and kinds of the variables in order of declaration. -/
def signature (e : Encoding) : Array (String × Bool) := e.vars.map fun x => (x.name, x.isInput)

/-- Boolean variables of two encodings stand for the same. -/
def SameOrigin (e e' : Encoding) (v w : Nat) : Prop :=
  ∃ o, e.origins[v]? = some o ∧ e'.origins[w]? = some o

/-- Expressions of two encodings are the same up to the numbers of nodes and the order of
operands. -/
def Alike (e e' : Encoding) (l l' : Lit) : Prop :=
  Graph.Alike (SameOrigin e e') e.graph e'.graph l l'

theorem WellFormed.origin_inj {e : Encoding} (wf : e.WellFormed) {v w : Nat} {o : Origin}
    (hv : e.origins[v]? = some o) (hw : e.origins[w]? = some o) : v = w := by
  cases o with
  | current i =>
    obtain ⟨x, hx, hcurrent⟩ := (wf.current i v).1 hv
    obtain ⟨y, hy, hcurrent'⟩ := (wf.current i w).1 hw
    cases hx.symm.trans hy
    exact Lit.pos_inj.1 (hcurrent.symm.trans hcurrent')
  | next i =>
    obtain ⟨x, hx, hrole⟩ := (wf.next i v).1 hv
    obtain ⟨y, hy, hrole'⟩ := (wf.next i w).1 hw
    cases hx.symm.trans hy
    exact Lit.pos_inj.1 (Role.state.inj (hrole.symm.trans hrole'))
  | timed i t =>
    have hl := (wf.timeline i t (.pos v)).2 ⟨rfl, hv⟩
    exact Lit.pos_inj.1 (Option.some.inj (hl.symm.trans ((wf.timeline i t (.pos w)).2 ⟨rfl, hw⟩)))

/-- Two encodings with the same declarations. -/
structure Twins (e e' : Encoding) : Prop where
  left : e.WellFormed
  right : e'.WellFormed
  left_reduced : e.graph.Reduced
  right_reduced : e'.graph.Reduced
  signature : e.signature = e'.signature

section

variable {e e' : Encoding} (h : e.Twins e') {l l' m m' : Lit}

include h

theorem Twins.comparable : Graph.Comparable (SameOrigin e e') e.graph e'.graph where
  left := h.left.graph
  right := h.right.graph
  left_reduced := h.left_reduced
  right_reduced := h.right_reduced
  left_unique _ _ _ := fun ⟨_, hv, hw⟩ ⟨_, hv', hw'⟩ => by
    cases hw.symm.trans hw'
    exact h.left.origin_inj hv hv'
  right_unique _ _ _ := fun ⟨_, hv, hw⟩ ⟨_, hv', hw'⟩ => by
    cases hv.symm.trans hv'
    exact h.right.origin_inj hw hw'

theorem Twins.alike_of_origin {v w : Nat} {o : Origin} (hv : e.origins[v]? = some o)
    (hw : e'.origins[w]? = some o) : e.Alike e' (.pos v) (.pos w) :=
  .input false (h.left.origins v o hv) (h.right.origins w o hw) ⟨o, hv, hw⟩

theorem Twins.variable {i : Nat} {x : Variable} (hx : e.vars[i]? = some x) :
    ∃ y, e'.vars[i]? = some y ∧ y.name = x.name ∧ y.isInput = x.isInput := by
  have hi : e.signature[i]? = e'.signature[i]? := by rw [h.signature]
  simp only [Encoding.signature, Array.getElem?_map, hx] at hi
  cases hy : e'.vars[i]? with
  | none => simp [hy] at hi
  | some y =>
    simp only [hy, Option.map_some, Option.some.injEq, Prod.mk.injEq] at hi
    exact ⟨y, rfl, hi.1.symm, hi.2.symm⟩

omit h in
theorem Alike.symm (hll : e.Alike e' l l') : e'.Alike e l' l :=
  Graph.Alike.mono (Graph.Alike.symm hll) (le_refl _) (le_refl _)
    fun _ _ ⟨o, hv, hw⟩ => ⟨o, hw, hv⟩

theorem Twins.symm : e'.Twins e :=
  ⟨h.right, h.left, h.right_reduced, h.left_reduced, h.signature.symm⟩

theorem Alike.of_le (hll : e.Alike e' l l') {E E' : Encoding} (hle : e ≤ E) (hle' : e' ≤ E') :
    E.Alike E' l l' := by
  apply Graph.Alike.mono hll (graph_le hle) (graph_le hle')
  rintro v w ⟨o, hv, hw⟩
  exact ⟨o, origin_of_le h.left hle hv, origin_of_le h.right hle' hw⟩

end

theorem rebuildNode_reduced {leaf : Nat → StateM Encoding Lit} (hsettles : Settles leaf)
    (hleaf : ∀ {e : Encoding}, e.graph.Reduced → ∀ v, (leaf v e).2.graph.Reduced) (v : Nat)
    {e : Encoding} (wf : e.WellFormed) (h : e.graph.Reduced) (hv : Lit.pos v ∈ e.graph)
    {memo : Std.HashMap Nat Lit} (hmemo : Images leaf e memo) :
    (rebuildNode leaf v memo e).2.graph.Reduced := by
  induction v using Nat.strongRecOn generalizing e memo with
  | _ v ih =>
    rw [rebuildNode_eq]
    split
    · exact h
    split
    · exact h
    split
    · exact hleaf h v
    · rename_i p hops
      obtain ⟨ha, hb⟩ := wf.operands_mem hv hops
      have hleft := rebuildNode_reimages hsettles p.1.1.var wf ha hmemo
      have hb₁ := Graph.mem_of_le (graph_le hleft.grows) hb
      have hright := rebuildNode_reimages hsettles p.1.2.var hleft.wf hb₁ hleft.images
      have hleftmem := hleft.image.mem hsettles hleft.wf (Graph.mem_of_le (graph_le hleft.grows) ha)
      have hrightmem := hright.image.mem hsettles hright.wf
        (Graph.mem_of_le (graph_le hright.grows) hb₁)
      have hreduced := ih p.1.2.var p.2.2 hleft.wf (ih p.1.1.var p.2.1 wf h ha hmemo) hb₁
        hleft.images
      exact Graph.Reduced.and hreduced
        (Graph.flipIf_mem_iff.2 (Graph.mem_of_le (graph_le hright.grows) hleftmem))
        (Graph.flipIf_mem_iff.2 hrightmem)

/-- Nothing beneath a node stands in the way of shifting it. -/
def Shiftable (e : Encoding) (v : Nat) : Prop := e.graph.Over (fun w => e.shiftError? w = none) v

theorem shift_eq_ok_iff {e : Encoding} (wf : e.WellFormed) {l : Lit} (hl : l ∈ e.graph) {m : Lit} :
    (shift l e).1 = .ok m ↔ e.Shiftable l.var ∧ (rebuild leafNext l e).1 = m := by
  constructor
  · intro hm
    refine ⟨Graph.over_of_support wf.graph hl (shiftError?_eq_none_of_shift hm), ?_⟩
    rw [shift_eq] at hm
    dsimp only at hm
    split at hm
    · cases hm
    · exact Except.ok.inj hm
  · rintro ⟨hover, rfl⟩
    have hnone : (e.graph.support l).filterMap (fun m : Lit => e.shiftError? m.var) = [] :=
      List.filterMap_eq_nil_iff.2 fun m hm => Graph.Over.of_mem_support wf.graph hover hm
    rw [shift_eq, hnone]
    rfl

theorem exists_shift_error {e : Encoding} (wf : e.WellFormed) {l : Lit} (hl : l ∈ e.graph)
    (h : ¬ e.Shiftable l.var) : ∃ err, (shift l e).1 = .error err := by
  cases hm : (shift l e).1 with
  | ok m => exact absurd ((shift_eq_ok_iff wf hl).1 hm).1 h
  | error err => exact ⟨err, rfl⟩

section

variable {e : Encoding} (h : e.graph.Reduced)

include h

theorem leafNext_reduced (v : Nat) : (leafNext v e).2.graph.Reduced := by
  rwa [leafNext_eq]

theorem variableAt_reduced (i : Nat) (t : UInt64) : (variableAt i t e).2.graph.Reduced := by
  rw [variableAt_eq]
  split
  · exact h
  · exact h.input

theorem leafAt_reduced (time : UInt64) (v : Nat) : (leafAt time v e).2.graph.Reduced := by
  rw [leafAt_eq]
  split
  · exact variableAt_reduced h _ _
  · exact variableAt_reduced h _ _
  · exact h

theorem declare_reduced (isInput : Bool) (name : String) :
    (declare isInput name e).2.graph.Reduced := by
  rw [declare_eq]
  split
  · exact h
  split
  · exact h
  split
  · exact h.input
  · exact h.input.input

end

section

variable {leaf : Nat → StateM Encoding Lit} {e : Encoding} {v : Nat} {m : Lit}

theorem Image.of_one (h : Image leaf e 1 m) : m = Graph.truth := by
  cases h with
  | one => rfl
  | free hone | gate hone => exact absurd rfl hone

variable (wf : e.WellFormed) (h : Image leaf e v m)

include wf h

theorem Image.of_input (hnode : e.graph.nodes[v]? = some .input) : leaf v e = (m, e) := by
  cases h with
  | one => exact absurd rfl (wf.graph.ne_one_of_input hnode)
  | free _ _ hmade => exact hmade
  | gate _ hops =>
    exact absurd (hops.symm.trans (Graph.operands?_eq_none_of_input hnode)) (by simp)

theorem Image.of_gate {a b : Lit} (hnode : e.graph.nodes[v]? = some (.gate a b)) :
    ∃ x y, Image leaf e a.var x ∧ Image leaf e b.var y ∧
      Graph.and (x.flipIf a.negated) (y.flipIf b.negated) e.graph = (m, e.graph) := by
  obtain ⟨_, hops⟩ := wf.graph.operands?_eq_some hnode
  cases h with
  | one => exact absurd rfl (wf.graph.ne_one_of_gate hnode)
  | free _ hnone => exact absurd (hnone.symm.trans hops) (by simp)
  | @gate _ x y _ _ _ hops' ha hb hmade =>
    obtain rfl := Option.some.inj (hops'.symm.trans hops)
    rw [onGraph_eq, Prod.mk.injEq] at hmade
    exact ⟨x, y, ha, hb, Prod.ext hmade.1 (congrArg Encoding.graph hmade.2)⟩

end

section

variable {e e' : Encoding} (h : e.Twins e') {l l' m m' : Lit}

include h

theorem Twins.nextForm {v w : Nat} (hv : e.graph.nodes[v]? = some .input)
    (hw : e'.graph.nodes[w]? = some .input) (hvw : SameOrigin e e' v w) :
    e.Alike e' (e.nextForm v) (e'.nextForm w) := by
  have hkept : e.Alike e' (.pos v) (.pos w) := .input false hv hw hvw
  obtain ⟨o, ho, ho'⟩ := hvw
  unfold Encoding.nextForm
  rw [ho, ho']
  cases o with
  | next i => exact hkept
  | timed i t => exact hkept
  | current i =>
    obtain ⟨x, hx, -⟩ := (h.left.current i v).1 ho
    obtain ⟨y, hy, -, hinput⟩ := h.variable hx
    have hposx := (h.left.positive i x hx).2
    have hposy := (h.right.positive i y hy).2
    obtain ⟨name, index, current, role⟩ := x
    obtain ⟨name', index', current', role'⟩ := y
    simp only [hx, hy]
    cases role with
    | input =>
      cases role' with
      | input => exact hkept
      | state n' => simp [Variable.isInput] at hinput
    | state n =>
      cases role' with
      | input => simp [Variable.isInput] at hinput
      | state n' =>
        have hn := Lit.eq_pos_of_negated (hposx n rfl)
        have hn' := Lit.eq_pos_of_negated (hposy n' rfl)
        have horigin := (h.left.next i n.var).2 ⟨_, hx, congrArg Role.state hn⟩
        have horigin' := (h.right.next i n'.var).2 ⟨_, hy, congrArg Role.state hn'⟩
        dsimp only
        rw [hn, hn']
        exact h.alike_of_origin horigin horigin'

theorem Twins.shiftable (hll : e.Alike e' l l') (hl : e.Shiftable l.var) :
    e'.Shiftable l'.var := by
  apply Graph.Alike.over h.left.graph _ hll hl
  rintro v w ⟨o, ho, ho'⟩ hnone
  rw [shiftError?, ho']
  rw [shiftError?, ho] at hnone
  cases o with
  | next i => cases hnone
  | timed i t => rfl
  | current i =>
    obtain ⟨x, hx, -⟩ := (h.left.current i v).1 ho
    obtain ⟨y, hy, -, hinput⟩ := h.variable hx
    simp only [hx] at hnone
    simp only [hy, hinput]
    split at hnone
    · cases hnone
    · rename_i hstate
      exact if_neg hstate

theorem Twins.images (hll : e.Alike e' l l') (hm : Image leafNext e l.var m)
    (hm' : Image leafNext e' l'.var m') :
    e.Alike e' (m.flipIf l.negated) (m'.flipIf l'.negated) := by
  induction hll generalizing m m' with
  | constant n =>
    rw [hm.of_one, hm'.of_one]
    exact .constant _
  | input n hv hw hvw =>
    have hmade := hm.of_input h.left hv
    have hmade' := hm'.of_input h.right hw
    rw [leafNext_eq, Prod.mk.injEq] at hmade hmade'
    rw [← hmade.1, ← hmade'.1]
    exact (h.nextForm hv hw hvw).flipIf n
  | gate n hv hw _ _ ihac ihbd =>
    obtain ⟨x, y, hx, hy, hmade⟩ := hm.of_gate h.left hv
    obtain ⟨x', y', hx', hy', hmade'⟩ := hm'.of_gate h.right hw
    have hgates := Graph.and_likens h.comparable (ihac hx hx') (ihbd hy hy')
    rw [hmade, hmade'] at hgates
    exact hgates.alike.flipIf n
  | crossed n hv hw _ _ ihad ihbc =>
    obtain ⟨x, y, hx, hy, hmade⟩ := hm.of_gate h.left hv
    obtain ⟨x', y', hx', hy', hmade'⟩ := hm'.of_gate h.right hw
    have hgates := Graph.and_likens h.comparable (ihad hx hy') (ihbc hy hx')
    rw [Graph.and_comm (y'.flipIf _), hmade, hmade'] at hgates
    exact hgates.alike.flipIf n

theorem Twins.rebuild (hll : e.Alike e' l l') :
    (Encoding.rebuild leafNext l e).2.Twins (Encoding.rebuild leafNext l' e').2 ∧
      (Encoding.rebuild leafNext l e).2.Alike (Encoding.rebuild leafNext l' e').2
        (Encoding.rebuild leafNext l e).1 (Encoding.rebuild leafNext l' e').1 := by
  have hl := Graph.Alike.mem h.left.graph hll
  have hl' := Graph.Alike.mem h.right.graph hll.symm
  have hmade := rebuildNode_reimages leafNext_settles l.var h.left hl (images_empty _ _)
  have hmade' := rebuildNode_reimages leafNext_settles l'.var h.right hl' (images_empty _ _)
  have htwins : (Encoding.rebuild leafNext l e).2.Twins (Encoding.rebuild leafNext l' e').2 := by
    refine ⟨hmade.wf, hmade'.wf, ?_, ?_, ?_⟩
    · exact rebuildNode_reduced leafNext_settles leafNext_reduced l.var h.left h.left_reduced hl
        (images_empty _ _)
    · exact rebuildNode_reduced leafNext_settles leafNext_reduced l'.var h.right h.right_reduced hl'
        (images_empty _ _)
    · rw [Encoding.signature, Encoding.signature, (rebuild_rebuilds leafNext_leaves h.left hl).vars,
        (rebuild_rebuilds leafNext_leaves h.right hl').vars]
      exact h.signature
  exact ⟨htwins, htwins.images (hll.of_le h hmade.grows hmade'.grows) hmade.image hmade'.image⟩

/-- An expression has a next form if one that is like it has, and then those are alike. -/
theorem Twins.shift (hll : e.Alike e' l l') :
    (Encoding.shift l e).2.Twins (Encoding.shift l' e').2 ∧
      Both ((Encoding.shift l e).2.Alike (Encoding.shift l' e').2) (Encoding.shift l e).1
        (Encoding.shift l' e').1 := by
  have hl := Graph.Alike.mem h.left.graph hll
  have hl' := Graph.Alike.mem h.right.graph hll.symm
  have hsecond : ∀ (l : Lit) (e : Encoding),
      (Encoding.shift l e).2 = (Encoding.rebuild leafNext l e).2 := fun l e => by rw [shift_eq]
  obtain ⟨htwins, halike⟩ := h.rebuild hll
  rw [hsecond, hsecond]
  refine ⟨htwins, ?_⟩
  by_cases hshiftable : e.Shiftable l.var
  · rw [(shift_eq_ok_iff h.left hl).2 ⟨hshiftable, rfl⟩,
      (shift_eq_ok_iff h.right hl').2 ⟨h.shiftable hll hshiftable, rfl⟩]
    exact .ok halike
  · have hshiftable' : ¬ e'.Shiftable l'.var := fun h' =>
      hshiftable (h.symm.shiftable hll.symm h')
    obtain ⟨err, herr⟩ := exists_shift_error h.left hl hshiftable
    obtain ⟨err', herr'⟩ := exists_shift_error h.right hl' hshiftable'
    rw [herr, herr']
    exact .error err err'

end

/-- From twins, attempts led to twins with results that are related. -/
structure Matches {ε α : Type} (R : Encoding → Encoding → α → α → Prop) (e e' : Encoding)
    (r r' : Except ε α × Encoding) : Prop where
  twins : r.2.Twins r'.2
  left_grows : e ≤ r.2
  right_grows : e' ≤ r'.2
  both : Both (R r.2 r'.2) r.1 r'.1

section

variable {ε : Type} {e e' : Encoding} (h : e.Twins e')

include h

theorem Twins.attempt {c c' : StateM Graph Lit}
    (hc : Graph.Likens (SameOrigin e e') e.graph e'.graph (c e.graph) (c' e'.graph)) :
    Matches (ε := ε) Alike e e' ((Encoding.attempt c).run e) ((Encoding.attempt c').run e') where
  twins := ⟨h.left.of_graph hc.comparable.left hc.left_grows,
    h.right.of_graph hc.comparable.right hc.right_grows, hc.comparable.left_reduced,
    hc.comparable.right_reduced, h.signature⟩
  left_grows := le_of_graph_le hc.left_grows
  right_grows := le_of_graph_le hc.right_grows
  both := .ok hc.alike

theorem Twins.matches_error {α : Type} {R : Encoding → Encoding → α → α → Prop} (err err' : ε) :
    Matches R e e' (.error err, e) (.error err', e') :=
  ⟨h, le_refl e, le_refl e', .error err err'⟩

theorem Twins.matches_ok {l l' : Lit} (hll : e.Alike e' l l') :
    Matches (ε := ε) Alike e e' (.ok l, e) (.ok l', e') :=
  ⟨h, le_refl e, le_refl e', .ok hll⟩

omit h in
theorem connect_next_run (a : Lit) (e : Encoding) :
    (Encoding.connect .next true [a]).run e =
      ((Encoding.shift a e).1.mapError .shift, (Encoding.shift a e).2) := by
  rw [connect_next_eq, if_pos rfl]
  cases (Encoding.shift a e).1 <;> rfl

theorem Twins.connect (c : Connective) (p : Bool) {ls ls' : List Lit}
    (hls : List.Forall₂ (e.Alike e') ls ls') :
    Matches Alike e e' ((Encoding.connect c p ls).run e) ((Encoding.connect c p ls').run e') := by
  have hwrong : ∀ reason : Malformed, Matches Alike e e' (.error reason, e) (.error reason, e') :=
    fun reason => h.matches_error reason reason
  cases c with
  | not =>
    rcases hls with _ | ⟨ha, _ | ⟨_, _⟩⟩
    · exact hwrong _
    · exact h.matches_ok (Graph.Alike.not ha)
    · exact hwrong _
  | next =>
    rcases hls with _ | ⟨ha, _ | ⟨_, _⟩⟩
    · exact hwrong _
    · cases p with
      | false => exact hwrong _
      | true =>
        rw [connect_next_run, connect_next_run]
        obtain ⟨htwins, hboth⟩ := h.shift ha
        obtain ⟨-, hle, -⟩ := shift_grows h.left (Graph.Alike.mem h.left.graph ha)
        obtain ⟨-, hle', -⟩ := shift_grows h.right (Graph.Alike.mem h.right.graph ha.symm)
        exact ⟨htwins, hle, hle', hboth.mapError _ _⟩
    · exact hwrong _
  | xor =>
    rcases hls with _ | ⟨ha, _ | ⟨hb, _ | ⟨_, _⟩⟩⟩
    · exact hwrong _
    · exact hwrong _
    · exact h.attempt (Graph.xor_likens h.comparable ha hb)
    · exact hwrong _
  | implies =>
    rcases hls with _ | ⟨ha, _ | ⟨hb, _ | ⟨_, _⟩⟩⟩
    · exact hwrong _
    · exact hwrong _
    · exact h.attempt (Graph.or_likens h.comparable ha.not hb)
    · exact hwrong _
  | iff =>
    rcases hls with _ | ⟨ha, _ | ⟨hb, _ | ⟨_, _⟩⟩⟩
    · exact hwrong _
    · exact hwrong _
    · exact h.attempt (Graph.xor_likens h.comparable ha hb).not
    · exact hwrong _
  | ite =>
    rcases hls with _ | ⟨ha, _ | ⟨hb, _ | ⟨hd, _ | ⟨_, _⟩⟩⟩⟩
    · exact hwrong _
    · exact hwrong _
    · exact hwrong _
    · exact h.attempt (Graph.ite_likens h.comparable ha hb hd)
    · exact hwrong _
  | and =>
    rcases hls with _ | ⟨ha, hls⟩
    · exact hwrong _
    · exact h.attempt (Graph.foldlM_likens Graph.and_likens h.comparable (.constant false)
        (.cons ha hls))
  | or =>
    rcases hls with _ | ⟨ha, hls⟩
    · exact hwrong _
    · exact h.attempt (Graph.foldlM_likens Graph.or_likens h.comparable (.constant true)
        (.cons ha hls))

end

theorem Twins.lookup? {e e' : Encoding} (h : e.Twins e') {name : String} {x : Variable}
    (hx : e.lookup? name = some x) :
    ∃ (i : Nat) (y : Variable), e'.lookup? name = some y ∧ e.vars[i]? = some x ∧
      e'.vars[i]? = some y := by
  unfold Encoding.lookup? at hx ⊢
  rw [Array.find?_eq_some_iff_getElem] at hx
  obtain ⟨hname, i, hi, rfl, hfirst⟩ := hx
  have hat : ∀ j (hj : j < e.vars.size), ∃ (hj' : j < e'.vars.size),
      e'.vars[j].name = e.vars[j].name := by
    intro j hj
    obtain ⟨y, hy, hsame, -⟩ := h.variable (Array.getElem?_eq_getElem hj)
    obtain ⟨hj', rfl⟩ := Array.getElem?_eq_some_iff.1 hy
    exact ⟨hj', hsame⟩
  obtain ⟨hi', hsame⟩ := hat i hi
  refine ⟨i, e'.vars[i], ?_, Array.getElem?_eq_getElem hi, Array.getElem?_eq_getElem hi'⟩
  rw [Array.find?_eq_some_iff_getElem]
  refine ⟨hsame ▸ hname, i, hi', rfl, fun j hj => ?_⟩
  obtain ⟨_, hsame'⟩ := hat j (Nat.lt_trans hj hi)
  rw [hsame']
  exact hfirst j hj

theorem Twins.conditionName? {e e' : Encoding} (h : e.Twins e') {name : String} {l : Lit}
    (hl : e.conditionName? name = some l) :
    ∃ l', e'.conditionName? name = some l' ∧ e.Alike e' l l' := by
  rcases conditionName?_cases name with ⟨b, hb, -⟩ | ⟨hvar, -⟩
  · rw [hb] at hl ⊢
    cases hl
    exact ⟨_, rfl, by cases b <;> exact .constant _⟩
  · rw [hvar, Option.map_eq_some_iff] at hl
    obtain ⟨x, hx, rfl⟩ := hl
    obtain ⟨i, y, hy, hxi, hyi⟩ := h.lookup? hx
    have hposx := Lit.eq_pos_of_negated (h.left.positive i x hxi).1
    have hposy := Lit.eq_pos_of_negated (h.right.positive i y hyi).1
    refine ⟨y.current, by rw [hvar, hy]; rfl, ?_⟩
    rw [hposx, hposy]
    exact h.alike_of_origin ((h.left.current i _).2 ⟨x, hxi, hposx⟩)
      ((h.right.current i _).2 ⟨y, hyi, hposy⟩)

section

variable {α : Type}

mutual

theorem Twins.condition {e e' : Encoding} (h : e.Twins e') (p : Bool) : (x : SExpr α) →
    Matches Alike e e' ((Encoding.condition p x).run e) ((Encoding.condition p x).run e')
  | .symbol note name => by
    rw [condition_symbol_eq, condition_symbol_eq]
    cases hl : e.conditionName? name with
    | some l =>
      obtain ⟨l', hl', hll⟩ := h.conditionName? hl
      rw [hl']
      exact h.matches_ok hll
    | none =>
      cases hl' : e'.conditionName? name with
      | none => exact h.matches_error _ _
      | some l' =>
        obtain ⟨l, hl'', -⟩ := h.symm.conditionName? hl'
        cases hl.symm.trans hl''
  | .list note (.symbol note' name :: args) => by
    have hargs := Twins.conditions h p args
    rw [condition_list_eq, condition_list_eq]
    generalize (Encoding.conditions p args).run e = r at hargs ⊢
    generalize (Encoding.conditions p args).run e' = r' at hargs ⊢
    obtain ⟨r, e₁⟩ := r
    obtain ⟨r', e₁'⟩ := r'
    obtain ⟨htwins, hle, hle', hls | _⟩ := hargs
    · cases Connective.ofName? name with
      | none => exact ⟨htwins, hle, hle', .error _ _⟩
      | some c =>
        have hconnect := htwins.connect c p hls
        exact ⟨hconnect.twins, le_trans hle hconnect.left_grows,
          le_trans hle' hconnect.right_grows, hconnect.both.mapError _ _⟩
    · exact ⟨htwins, hle, hle', .error _ _⟩
  | .list _ [] => by
    rw [condition_nil_eq, condition_nil_eq]
    exact h.matches_error _ _
  | .list _ (.list _ _ :: _) => by
    rw [condition_nested_eq, condition_nested_eq]
    exact h.matches_error _ _

theorem Twins.conditions {e e' : Encoding} (h : e.Twins e') (p : Bool) : (xs : List (SExpr α)) →
    Matches (fun e e' => List.Forall₂ (e.Alike e')) e e' ((Encoding.conditions p xs).run e)
      ((Encoding.conditions p xs).run e')
  | [] => by
    rw [Encoding.conditions]
    exact ⟨h, le_refl e, le_refl e', .ok .nil⟩
  | x :: xs => by
    have hx := Twins.condition h p x
    rw [conditions_cons_eq, conditions_cons_eq]
    generalize (Encoding.condition p x).run e = r at hx ⊢
    generalize (Encoding.condition p x).run e' = r' at hx ⊢
    obtain ⟨r, e₁⟩ := r
    obtain ⟨r', e₁'⟩ := r'
    obtain ⟨htwins, hle, hle', hll | _⟩ := hx
    · have hxs := Twins.conditions htwins p xs
      refine ⟨hxs.twins, le_trans hle hxs.left_grows, le_trans hle' hxs.right_grows, ?_⟩
      exact hxs.both.map fun _ _ hls =>
        .cons (hll.of_le htwins hxs.left_grows hxs.right_grows) hls
    · exact ⟨htwins, hle, hle', .error _ _⟩

end

end

end Encoding

end Lasso
