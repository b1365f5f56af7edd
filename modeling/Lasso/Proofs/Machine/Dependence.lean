import Mathlib
import Lasso.Proofs.Graph.Traversal
import Lasso.Proofs.Machine.Journal
import Lasso.Proofs.Machine.Naming

/-! # What the value of an expression depends on

The support of an expression is what a walk down from it finds, and the expression depends on
nothing else.  So an instance of an expression over states depends on the state variables at its
time, whatever else is built before and after.
-/

namespace Lasso

set_option autoImplicit false

namespace Encoding

/-- The state variables have the same values at a time. -/
def SameStateAt (e : Encoding) (time : UInt64) (ρ σ : Assignment) : Prop :=
  ∀ x ∈ e.stateVariables, ∀ m : Lit, e.timeline[(x.index, time)]? = some m → ρ m.var = σ m.var

theorem SameStateAt.of_le {e e' : Encoding} (wf : e.WellFormed) (wf' : e'.WellFormed) (hle : e ≤ e')
    {time : UInt64} {ρ σ : Assignment} (h : e'.SameStateAt time ρ σ) : e.SameStateAt time ρ σ := by
  intro x hx m hm
  obtain ⟨hmem, hrole⟩ := List.mem_filter.1 hx
  have hmem' := mem_vars_of_le hle (Array.mem_toList_iff.1 hmem)
  refine h x (List.mem_filter.2 ⟨Array.mem_toList_iff.2 hmem', hrole⟩) m ?_
  exact timeline_of_le wf wf' hle hm

theorem exists_variableAt_of_beneath {e : Encoding} (wf : e.WellFormed) {l : Lit}
    (hl : l ∈ e.graph) (time : UInt64) {v i : Nat} (hv : e.graph.Beneath [l] v)
    (ho : e.origins[v]? = some (.current i)) :
    ∃ m, (instantiate l time e).2.timeline[(i, time)]? = some m := by
  rw [← Option.isSome_iff_exists, ← Std.HashMap.mem_iff_isSome_getElem?]
  refine (mem_timeline_rebuildNode_iff wf hl time (images_empty _ _)).2 (.inl ?_)
  exact (mem_due_iff wf).2 ⟨v, hv, by rw [due?, ho]⟩

theorem Substitutes.eq_of_current {e : Encoding} (wf : e.WellFormed) {time : UInt64}
    {ρ σ : Assignment} (h : e.Substitutes time ρ σ) {v i : Nat} {m : Lit}
    (ho : e.origins[v]? = some (.current i)) (hm : e.timeline[(i, time)]? = some m) :
    σ v = ρ m.var := by
  have hinstant := h.instant wf v (wf.lt_size ho)
  rw [ho] at hinstant
  exact hinstant m hm

/-- An instance of an expression over states is made of the state variables at its time. -/
theorem eval_instantiate_congr {e : Encoding} (wf : e.WellFormed) {l : Lit} (hl : l ∈ e.graph)
    (hstate : e.isStateExpr l) (time : UInt64) {ρ σ : Assignment}
    (h : (instantiate l time e).2.SameStateAt time ρ σ) :
    (instantiate l time e).2.graph.eval ρ (instantiate l time e).1 =
      (instantiate l time e).2.graph.eval σ (instantiate l time e).1 := by
  have hmade := instantiate_rebuilds wf hl time
  obtain ⟨ρ', hρ⟩ := exists_substitutes hmade.wf time ρ
  obtain ⟨σ', hσ⟩ := exists_substitutes hmade.wf time σ
  rw [hmade.eval ρ ρ' (hρ.instant hmade.wf), hmade.eval σ σ' (hσ.instant hmade.wf)]
  refine Graph.eval_congr_of_support fun k hk => ?_
  obtain ⟨x, hx, ho⟩ := exists_stateVariable wf hstate hk
  obtain ⟨v, rfl, hbeneath, -⟩ := (Graph.mem_support_iff_beneath wf.graph hl).1 hk
  rw [Lit.var_pos] at ho ⊢
  obtain ⟨m, hm⟩ := exists_variableAt_of_beneath wf hl time hbeneath ho
  have hkept := origin_of_le wf hmade.grows ho
  rw [hρ.eq_of_current hmade.wf hkept hm, hσ.eq_of_current hmade.wf hkept hm]
  exact h x (by rwa [stateVariables, hmade.vars]) m hm

end Encoding

namespace Journal

open Encoding

theorem Sound.eval_instantiate_congr {α : Type} {s : Journal} (hs : s.Sound) {l : Lit}
    (hl : l ∈ s.encoding.graph) (hstate : s.encoding.isStateExpr l) (time : UInt64) {s' : Journal}
    (h : Steps α (Journal.instantiate l time s).2 s') {ρ σ : Assignment}
    (hsame : s'.encoding.SameStateAt time ρ σ) :
    s'.encoding.graph.eval ρ (Journal.instantiate l time s).1 =
      s'.encoding.graph.eval σ (Journal.instantiate l time s).1 := by
  have hmade := hs.instantiate hl time
  obtain ⟨hs', hle⟩ := h.sound hmade.sound
  have hmem := (instantiate_rebuilds hs.wf hl time).mem
  have hcongr := Encoding.eval_instantiate_congr hs.wf hl hstate time (ρ := ρ) (σ := σ)
  rw [← hmade.same] at hmem hcongr
  rw [Graph.eval_eq_of_le (graph_le hle) ρ hmem, Graph.eval_eq_of_le (graph_le hle) σ hmem]
  exact hcongr (hsame.of_le hmade.sound.wf hs'.wf hle)

end Journal

namespace Graph

/-- The walk down from an expression ends with its support.  That lists the free variables beneath
the expression, each once and without a negation, in the order in which a traversal first comes to
them, and they determine the value of the expression.  So the value of an instance of an expression
over states is determined by the state variables at its time. -/
theorem support_determines :
    (∀ g : Graph, g.Made → ∀ l ∈ g,
      (∀ ls, Descent.Ends g (.start l) ls ↔ ls = g.support l) ∧
      (g.support l).Nodup ∧
      (∀ m, m ∈ g.support l ↔ ∃ v, m = .pos v ∧ g.Beneath [l] v ∧ g.nodes[v]? = some .input) ∧
      g.support l =
        ((g.traversal l.var).filter fun v => g.isInput (.pos v)).eraseDups.map .pos ∧
      ∀ ρ σ : Assignment, (∀ m ∈ g.support l, ρ m.var = σ m.var) → g.eval ρ l = g.eval σ l) ∧
    ∀ (α : Type) (s : Journal), Journal.Steps α .start s → ∀ l ∈ s.encoding.graph,
      s.encoding.isStateExpr l → ∀ (time : UInt64) (s' : Journal),
        Journal.Steps α (Journal.instantiate l time s).2 s' → ∀ ρ σ : Assignment,
          s'.encoding.SameStateAt time ρ σ →
            s'.encoding.graph.eval ρ (Journal.instantiate l time s).1 =
              s'.encoding.graph.eval σ (Journal.instantiate l time s).1 := by
  constructor
  · intro g hg l hl
    have wf := hg.wellFormed
    refine ⟨fun ls => Descent.ends_start_iff, support_nodup g l, ?_, support_eq_leaves wf l, ?_⟩
    · exact fun m => mem_support_iff_beneath wf hl
    · exact fun ρ σ h => eval_congr_of_support h
  · intro α s h l hl hstate time s' h' ρ σ hsame
    obtain ⟨hs, -⟩ := h.sound Journal.sound_start
    exact hs.eval_instantiate_congr hl hstate time h' hsame

def sharedGraph : Graph :=
  [.input, .input, .input, .and (.pos 3) (.pos 4), .and (.pos 2) (.pos 4),
    .and (.pos 5) (.pos 6)].foldl (fun g (o : Operation) => (o.run g).2) ∅

theorem made_sharedGraph : sharedGraph.Made := by
  have hpair : ∀ {g : Graph} {a b : Lit}, a ∈ g ∧ b ∈ g →
      ∀ l ∈ (Operation.and a b).arguments, l ∈ g := by
    rintro g a b ⟨ha, hb⟩
    exact List.forall_mem_cons.2 ⟨ha, List.forall_mem_singleton.2 hb⟩
  refine .step _ (.step _ (.step _ (.step _ (.step _ (.step _ .empty nofun) nofun) nofun)
    (hpair ⟨⟨?_, ?_⟩, ?_, ?_⟩)) (hpair ⟨⟨?_, ?_⟩, ?_, ?_⟩)) (hpair ⟨⟨?_, ?_⟩, ?_, ?_⟩)
  all_goals cbv

def latches : Journal :=
  Journal.run (.construct (α := Unit) (.and (.pos 2) ⟨4, true⟩))
    (.run (.declare (α := Unit) true "i")
      (.run (.declare (α := Unit) false "q") (.run (.declare (α := Unit) false "p") .start)))

theorem steps_latches : Journal.Steps Unit .start latches := by
  refine (((Relation.ReflTransGen.single (.call (.declare false "p") nofun)).tail
    (.call (.declare false "q") nofun)).tail (.call (.declare true "i") nofun)).tail
      (.call (.construct (.and (.pos 2) ⟨4, true⟩)) ?_)
  refine List.forall_mem_cons.2 ⟨⟨?_, ?_⟩, List.forall_mem_singleton.2 ⟨?_, ?_⟩⟩
  all_goals cbv

/-- A support that is not in the order of numbers, and the condition at a time at which the input is
asked for afterwards. -/
theorem support_determines_shared :
    (Descent.Ends sharedGraph (.start (.pos 7)) [.pos 3, .pos 4, .pos 2] ∧
      sharedGraph.eval (fun _ => true) (.pos 7) = sharedGraph.eval (· < 5) (.pos 7)) ∧
    latches.encoding.isStateExpr (.pos 7) ∧
      let r := Journal.instantiate (.pos 7) 2 latches
      let s := Journal.run (.variableAt (α := Unit) 2 2) r.2
      let σ : Assignment := fun v => v < 8 ∨ 10 < v
      s.encoding.SameStateAt 2 (fun _ => false) σ ∧
        s.encoding.graph.eval (fun _ => false) r.1 = s.encoding.graph.eval σ r.1 := by
  have hmem : Lit.pos 7 ∈ sharedGraph := ⟨by decide, by cbv⟩
  obtain ⟨hgraph, hjournal⟩ := support_determines
  obtain ⟨hends, -, -, -, hvalue⟩ := hgraph sharedGraph made_sharedGraph (.pos 7) hmem
  have hsupport : sharedGraph.support (.pos 7) = [.pos 3, .pos 4, .pos 2] := by cbv
  have hstate : latches.encoding.isStateExpr (.pos 7) := by cbv
  refine ⟨⟨(hends _).2 hsupport.symm, hvalue _ _ ?_⟩, hstate, ?_⟩
  · rw [hsupport]
    decide
  intro r s σ
  have hsame : s.encoding.SameStateAt 2 (fun _ => false) σ := by
    have hvars : s.encoding.stateVariables =
        [⟨"p", 0, .pos 2, .state (.pos 3)⟩, ⟨"q", 1, .pos 4, .state (.pos 5)⟩] := by cbv
    have hp : s.encoding.timeline[(0, (2 : UInt64))]? = some (.pos 8) := by cbv
    have hq : s.encoding.timeline[(1, (2 : UInt64))]? = some (.pos 9) := by cbv
    intro x hx m hm
    rw [hvars] at hx
    rcases List.mem_pair.1 hx with rfl | rfl
    · rw [hp] at hm
      cases hm
      rfl
    · rw [hq] at hm
      cases hm
      rfl
  refine ⟨hsame, ?_⟩
  exact hjournal Unit latches steps_latches (.pos 7) ⟨by decide, by cbv⟩ hstate 2 s
    (.single (.call (.variableAt 2 2) (List.forall_mem_nil _))) _ _ hsame

end Graph

end Lasso
