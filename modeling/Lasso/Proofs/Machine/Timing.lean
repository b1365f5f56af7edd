import Lasso.Proofs.Graph.Support
import Lasso.Proofs.Machine.Rebuild

/-! # Expressions at a time and next forms

An instance of an expression at a time denotes what the expression denotes, read at that time and
the one after it.  The next form of an expression over the state denotes what the expression
denotes one step later.
-/

namespace Lasso

set_option autoImplicit false

namespace Encoding

/-- The values of untimed forms are those of the timed variables there are at a time. -/
def Instant (time : UInt64) (e : Encoding) (ρ σ : Assignment) : Prop :=
  ∀ v, v < e.graph.size → match e.origins[v]? with
    | some (.current i) => ∀ l, e.timeline[(i, time)]? = some l → σ v = ρ l.var
    | some (.next i) => ∀ l, e.timeline[(i, time + 1)]? = some l → σ v = ρ l.var
    | _ => σ v = ρ v

theorem Instant.of_le {time : UInt64} {e e' : Encoding} {ρ σ : Assignment} (wf : e.WellFormed)
    (wf' : e'.WellFormed) (hle : e ≤ e') (h : Instant time e' ρ σ) : Instant time e ρ σ := by
  intro v hv
  have hv' := h v (Nat.lt_of_lt_of_le hv (Graph.size_le_of_le (graph_le hle)))
  rw [hle.origins v hv] at hv'
  cases ho : e.origins[v]? with
  | none =>
    rw [ho] at hv'
    exact hv'
  | some o =>
    rw [ho] at hv'
    cases o with
    | current i => exact fun l hl => hv' l (timeline_of_le wf wf' hle hl)
    | next i => exact fun l hl => hv' l (timeline_of_le wf wf' hle hl)
    | timed i t => exact hv'

theorem leafAt_eq (time : UInt64) (v : Nat) (e : Encoding) :
    leafAt time v e = match e.origins[v]? with
      | some (.current i) => variableAt i time e
      | some (.next i) => variableAt i (time + 1) e
      | _ => (.pos v, e) := by
  change (match e.origins[v]? with
    | some (.current i) => variableAt i time
    | some (.next i) => variableAt i (time + 1)
    | _ => (return .pos v : StateM Encoding Lit)) e = _
  cases e.origins[v]? with
  | none => rfl
  | some o => cases o <;> rfl

theorem eval_variableAt {e : Encoding} (wf : e.WellFormed) (i : Nat) (t : UInt64) (ρ : Assignment) :
    (variableAt i t e).2.graph.eval ρ (variableAt i t e).1 = ρ (variableAt i t e).1.var := by
  have wf' := (variableAt_builds wf i t).wf
  obtain ⟨hpos, ho⟩ := (wf'.timeline i t _).1 (timeline_variableAt i t)
  rw [Lit.eq_pos_of_negated hpos, Graph.eval_pos, wf'.value_origin ho]
  rfl

theorem leafAt_leaves (time : UInt64) : Leaves (leafAt time) (Instant time) where
  anti wf wf' hle h := h.of_le wf wf' hle
  wf {e} v wf := by
    rw [leafAt_eq]
    split
    · exact (variableAt_builds wf _ _).wf
    · exact (variableAt_builds wf _ _).wf
    · exact wf
  grows {e} v wf := by
    rw [leafAt_eq]
    split
    · exact (variableAt_builds wf _ _).grows
    · exact (variableAt_builds wf _ _).grows
    · exact le_refl e
  vars {e} v wf := by
    rw [leafAt_eq]
    split
    · exact (variableAt_builds wf _ _).vars
    · exact (variableAt_builds wf _ _).vars
    · rfl
  mem {e v} wf hv := by
    rw [leafAt_eq]
    split
    · exact (variableAt_builds wf _ _).denotes.mem
    · exact (variableAt_builds wf _ _).denotes.mem
    · exact wf.graph.pos_mem_of_input hv
  eval {e v} wf hv ρ σ hR := by
    have hsize : v < e.graph.size := (Array.getElem?_eq_some_iff.1 hv).1
    -- asking for a timed variable leaves the origin of the leaf alone, which decides the case
    have hkeep : ∀ i t, (variableAt i t e).2.origins[v]? = e.origins[v]? :=
      fun i t => (variableAt_builds wf i t).grows.origins v hsize
    have hgrow : ∀ i t, v < (variableAt i t e).2.graph.size := fun i t =>
      Nat.lt_of_lt_of_le hsize (Graph.size_le_of_le (graph_le (variableAt_builds wf i t).grows))
    rw [leafAt_eq] at hR ⊢
    split at hR
    · rename_i i ho
      have h := hR v (hgrow i time)
      rw [hkeep, ho] at h
      rw [eval_variableAt wf]
      exact (h _ (timeline_variableAt i time)).symm
    · rename_i i ho
      have h := hR v (hgrow i (time + 1))
      rw [hkeep, ho] at h
      rw [eval_variableAt wf]
      exact (h _ (timeline_variableAt i (time + 1))).symm
    · rename_i hcur hnext
      have h := hR v hsize
      rw [Graph.eval_pos, wf.graph.value_input hv]
      split at h
      · rename_i i ho
        exact absurd ho (hcur i)
      · rename_i i ho
        exact absurd ho (hnext i)
      · exact h.symm

/-- Instances are substitution, whatever the expression is built from. -/
theorem instantiate_rebuilds {e : Encoding} (wf : e.WellFormed) {l : Lit} (hl : l ∈ e.graph)
    (time : UInt64) :
    Rebuilds (Instant time) e (instantiate l time e).1 (instantiate l time e).2
      (fun σ => e.graph.eval σ l) :=
  rebuild_rebuilds (leafAt_leaves time) wf hl

theorem instantiate_builds {e : Encoding} (wf : e.WellFormed) {l : Lit} {φ : View → Bool}
    (hl : e.Denotes l φ) (time : UInt64) :
    e.Builds (instantiate l time e) (fun V => φ (V.atTime time)) := by
  have h := instantiate_rebuilds wf hl.mem time
  refine ⟨h.wf, h.grows, h.vars, h.mem, fun ρ V hV => ?_⟩
  -- the assignment of the leaves: untimed forms as the view has them at the time, the rest as `ρ`
  let σ : Assignment := fun v => match (instantiate l time e).2.origins[v]? with
    | some o => V.atTime time o
    | none => ρ v
  have hinstant : Instant time (instantiate l time e).2 ρ σ := by
    intro v _
    have hσ : σ v = match (instantiate l time e).2.origins[v]? with
      | some o => V.atTime time o
      | none => ρ v := rfl
    rw [hσ]
    cases ho : (instantiate l time e).2.origins[v]? with
    | none => rfl
    | some o =>
      cases o with
      | current i =>
        intro m hm
        exact (hV m.var _ ((h.wf.timeline i time m).1 hm).2).symm
      | next i =>
        intro m hm
        exact (hV m.var _ ((h.wf.timeline i (time + 1) m).1 hm).2).symm
      | timed i t => exact (hV v _ ho).symm
  have hagrees : e.Agrees σ (V.atTime time) := by
    intro v o ho
    simp only [σ, origin_of_le wf h.grows ho]
  rw [h.eval ρ σ hinstant, hl.eval σ _ hagrees]

def instants : UInt64 → Nat → List UInt64
  | _, 0 => []
  | time, count + 1 => time :: instants (time + 1) count

theorem instants_eq (time : UInt64) (count : Nat) :
    instants time count = (List.range count).map fun j => time + UInt64.ofNat j := by
  induction count generalizing time with
  | zero => rfl
  | succ count ih =>
    rw [instants, ih, List.range_succ_eq_map, List.map_cons, List.map_map]
    refine congrArg₂ List.cons (UInt64.add_zero time).symm (List.map_congr_left fun j _ => ?_)
    change time + 1 + UInt64.ofNat j = time + UInt64.ofNat (j + 1)
    rw [UInt64.ofNat_add, UInt64.add_assoc, UInt64.add_comm 1]
    rfl

theorem mem_instants_iff {time t : UInt64} {count : Nat} :
    t ∈ instants time count ↔ ∃ j < count, t = time + UInt64.ofNat j := by
  simp only [instants_eq, List.mem_map, List.mem_range, eq_comm]

theorem mem_instants_intervalLength_iff {first last t : UInt64} :
    t ∈ instants first (intervalLength first last) ↔ first ≤ t ∧ t ≤ last := by
  rw [mem_instants_iff, UInt64.le_iff_toNat_le, UInt64.le_iff_toNat_le]
  have hlast := last.toNat_lt
  have ht := t.toNat_lt
  by_cases hle : first ≤ last
  · have hsub : (last - first).toNat = last.toNat - first.toNat := UInt64.toNat_sub_of_le _ _ hle
    have hle' := UInt64.le_iff_toNat_le.1 hle
    rw [intervalLength, if_pos hle, hsub]
    constructor
    · rintro ⟨j, hj, rfl⟩
      have hj' : (first + UInt64.ofNat j).toNat = first.toNat + j := by
        rw [UInt64.toNat_add, UInt64.toNat_ofNat_of_lt' (by simp [UInt64.size]; omega)]
        omega
      omega
    · rintro ⟨hfirst, hlast⟩
      refine ⟨t.toNat - first.toNat, by omega, ?_⟩
      apply UInt64.toNat_inj.1
      rw [UInt64.toNat_add, UInt64.toNat_ofNat_of_lt' (by simp [UInt64.size]; omega)]
      omega
  · have hle' : ¬ first.toNat ≤ last.toNat := fun h => hle (UInt64.le_iff_toNat_le.2 h)
    rw [intervalLength, if_neg hle]
    constructor
    · rintro ⟨j, hj, -⟩
      omega
    · rintro ⟨hfirst, hlast⟩
      omega

theorem joinFrom_builds {join : Lit → Lit → StateM Graph Lit} {op : Bool → Bool → Bool}
    (hjoin : Graph.Computes join op) (count : Nat) {e : Encoding} (wf : e.WellFormed) {l result : Lit}
    {φ ψ : View → Bool} (hl : e.Denotes l φ) (hresult : e.Denotes result ψ) (time : UInt64) :
    e.Builds (joinFrom join l count time result e)
      (fun V => (instants time count).foldl (fun acc t => op acc (φ (V.atTime t))) (ψ V)) := by
  induction count generalizing e time result ψ with
  | zero => exact Builds.of_denotes wf hresult
  | succ count ih =>
    have hnow := instantiate_builds wf hl time
    have hstep := onGraph_builds hjoin hnow.wf (hnow.denotes_old wf hresult) hnow.denotes
    have hle := le_trans hnow.grows hstep.grows
    exact hnow.after (hstep.after (ih hstep.wf (hl.of_le wf hle) hstep.denotes (time + 1)))

theorem sometime_builds {e : Encoding} (wf : e.WellFormed) {l : Lit} {φ : View → Bool}
    (hl : e.Denotes l φ) (first last : UInt64) :
    e.Builds (sometime l first last e)
      (fun V => (instants first (intervalLength first last)).any fun t => φ (V.atTime t)) := by
  refine (joinFrom_builds Graph.or_computes _ wf hl (denotes_falsity wf) first).congr fun V => ?_
  exact Graph.foldl_or _ _ false

theorem always_builds {e : Encoding} (wf : e.WellFormed) {l : Lit} {φ : View → Bool}
    (hl : e.Denotes l φ) (first last : UInt64) :
    e.Builds (always l first last e)
      (fun V => (instants first (intervalLength first last)).all fun t => φ (V.atTime t)) := by
  refine (joinFrom_builds Graph.and_computes _ wf hl (denotes_truth wf) first).congr fun V => ?_
  exact Graph.foldl_and _ _ true

end Encoding

end Lasso
