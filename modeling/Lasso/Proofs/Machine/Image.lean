import Lasso.Proofs.Machine.Repetition

/-! # Images of nodes

A node has an image in an encoding if rebuilding it there adds nothing.  Images are unique and stay
as the encoding grows.  So what was rebuilt once may be remembered for good: from any memory of
images, rebuilding returns the same expression and leads to the same encoding.
-/

namespace Lasso

set_option autoImplicit false

namespace Encoding

/-- What free variables are replaced by is made once and found again ever after. -/
structure Settles (leaf : Nat → StateM Encoding Lit) : Prop where
  wf : ∀ {e : Encoding} (v : Nat), e.WellFormed → (leaf v e).2.WellFormed
  grows : ∀ {e : Encoding} (v : Nat), e.WellFormed → e ≤ (leaf v e).2
  mem : ∀ {e : Encoding} {v : Nat}, e.WellFormed → Lit.pos v ∈ e.graph →
    (leaf v e).1 ∈ (leaf v e).2.graph
  again : ∀ {e e' : Encoding} {v : Nat}, e.WellFormed → e'.WellFormed → Lit.pos v ∈ e.graph →
    (leaf v e).2 ≤ e' → leaf v e' = ((leaf v e).1, e')

/-- The literal that a node is rebuilt into when nothing has to be added for it. -/
inductive Image (leaf : Nat → StateM Encoding Lit) (e : Encoding) : Nat → Lit → Prop where
  | one : Image leaf e 1 Graph.truth
  | free {v : Nat} {l : Lit} (hone : v ≠ 1) (hops : e.graph.operands? v = none)
    (hmade : leaf v e = (l, e)) : Image leaf e v l
  | gate {v : Nat} {a b l : Lit} {p} (hone : v ≠ 1) (hops : e.graph.operands? v = some p)
    (ha : Image leaf e p.1.1.var a) (hb : Image leaf e p.1.2.var b)
    (hmade : onGraph (Graph.and (a.flipIf p.1.1.negated) (b.flipIf p.1.2.negated)) e = (l, e)) :
    Image leaf e v l

/-- A memory of rebuilt nodes that holds nothing but their images. -/
def Images (leaf : Nat → StateM Encoding Lit) (e : Encoding) (memo : Std.HashMap Nat Lit) : Prop :=
  ∀ (v : Nat) (l : Lit), memo[v]? = some l → Lit.pos v ∈ e.graph ∧ Image leaf e v l

theorem images_empty (leaf : Nat → StateM Encoding Lit) (e : Encoding) : Images leaf e {} := by
  intro v l hl
  rw [Std.HashMap.getElem?_empty] at hl
  cases hl

theorem WellFormed.operands_mem {e : Encoding} (wf : e.WellFormed) {v : Nat}
    (hv : Lit.pos v ∈ e.graph) {p} (hops : e.graph.operands? v = some p) :
    Lit.pos p.1.1.var ∈ e.graph ∧ Lit.pos p.1.2.var ∈ e.graph := by
  obtain ⟨⟨hapos, hav⟩, hbpos, hbv⟩ :=
    wf.graph.operands v _ _ (Graph.nodes_of_operands?_eq_some hops)
  exact ⟨⟨hapos, Nat.lt_trans hav hv.2⟩, hbpos, Nat.lt_trans hbv hv.2⟩

section

variable {leaf : Nat → StateM Encoding Lit} {e e' : Encoding} {v : Nat} {l m : Lit}

theorem Image.unique (hl : Image leaf e v l) (hm : Image leaf e v m) : l = m := by
  induction hl generalizing m with
  | one =>
    cases hm with
    | one => rfl
    | free hone => exact absurd rfl hone
    | gate hone => exact absurd rfl hone
  | free hone hops hmade =>
    cases hm with
    | one => exact absurd rfl hone
    | free _ _ hmade' => exact (Prod.mk.inj (hmade.symm.trans hmade')).1
    | gate _ hops' => exact absurd (hops.symm.trans hops') (by simp)
  | gate hone hops _ _ hmade iha ihb =>
    cases hm with
    | one => exact absurd rfl hone
    | free _ hops' => exact absurd (hops.symm.trans hops') (by simp)
    | gate _ hops' ha hb hmade' =>
      obtain rfl := Option.some.inj (hops.symm.trans hops')
      rw [iha ha, ihb hb] at hmade
      exact (Prod.mk.inj (hmade.symm.trans hmade')).1

variable (hleaf : Settles leaf) (wf : e.WellFormed)

include hleaf wf

theorem Image.mem (hv : Lit.pos v ∈ e.graph) (h : Image leaf e v l) : l ∈ e.graph := by
  induction h with
  | one => exact wf.graph.truth_mem
  | free _ _ hmade =>
    have hmem := hleaf.mem wf hv
    rw [hmade] at hmem
    exact hmem
  | @gate _ _ _ _ p _ hops _ _ hmade iha ihb =>
    obtain ⟨ha, hb⟩ := wf.operands_mem hv hops
    have hgate := (and_remakes wf (Graph.flipIf_mem_iff (c := p.1.1.negated).2 (iha ha))
      (Graph.flipIf_mem_iff (c := p.1.2.negated).2 (ihb hb))).there
    rw [hmade] at hgate
    exact hgate

/-- Images are images ever after, whatever is declared, converted or moved in time. -/
theorem Image.of_le (wf' : e'.WellFormed) (hle : e ≤ e') (hv : Lit.pos v ∈ e.graph)
    (h : Image leaf e v l) : Image leaf e' v l := by
  have hkeep : ∀ {w : Nat}, Lit.pos w ∈ e.graph →
      e'.graph.operands? w = e.graph.operands? w := fun hw =>
    Graph.operands?_eq_of_le (graph_le hle) hw.2
  induction h with
  | one => exact .one
  | @free w _ hone hops hmade =>
    have hagain := hleaf.again (v := w) wf wf' hv (hmade ▸ hle)
    rw [hmade] at hagain
    exact .free hone ((hkeep hv).trans hops) hagain
  | gate hone hops _ _ hmade iha ihb =>
    obtain ⟨ha, hb⟩ := wf.operands_mem hv hops
    refine .gate hone ((hkeep hv).trans hops) (iha ha) (ihb hb) ?_
    rw [onGraph_eq, Prod.mk.injEq] at hmade
    have hsame := congrArg Encoding.graph hmade.2
    have hagain := Graph.and_repeats wf.graph _ _ e'.graph wf'.graph (hsame ▸ graph_le hle)
    rw [onGraph_eq, hagain, hmade.1]

theorem Images.of_le (wf' : e'.WellFormed) (hle : e ≤ e') {memo : Std.HashMap Nat Lit}
    (h : Images leaf e memo) : Images leaf e' memo := by
  intro v l hl
  obtain ⟨hv, himage⟩ := h v l hl
  exact ⟨Graph.mem_of_le (graph_le hle) hv, himage.of_le hleaf wf wf' hle hv⟩

omit hleaf wf in
theorem Images.insert {memo : Std.HashMap Nat Lit} (h : Images leaf e memo)
    (hv : Lit.pos v ∈ e.graph) (himage : Image leaf e v l) : Images leaf e (memo.insert v l) := by
  intro w m hm
  rw [Std.HashMap.getElem?_insert] at hm
  split at hm
  · rename_i hw
    obtain rfl : v = w := by simpa using hw
    cases hm
    exact ⟨hv, himage⟩
  · exact h w m hm

end

/-- A node was rebuilt into an image, and nothing but images is remembered. -/
structure Reimages (leaf : Nat → StateM Encoding Lit) (v : Nat) (e : Encoding)
    (r : (Lit × Std.HashMap Nat Lit) × Encoding) : Prop where
  wf : r.2.WellFormed
  grows : e ≤ r.2
  image : Image leaf r.2 v r.1.1
  images : Images leaf r.2 r.1.2

section

variable {leaf : Nat → StateM Encoding Lit} (hleaf : Settles leaf)

include hleaf

theorem rebuildNode_reimages (v : Nat) {e : Encoding} (wf : e.WellFormed)
    (hv : Lit.pos v ∈ e.graph) {memo : Std.HashMap Nat Lit} (hmemo : Images leaf e memo) :
    Reimages leaf v e (rebuildNode leaf v memo e) := by
  -- operands have smaller numbers; the image of the left one is still its image after the right one
  -- was rebuilt
  induction v using Nat.strongRecOn generalizing e memo with
  | _ v ih =>
    rw [rebuildNode_eq]
    split
    · rename_i hone
      exact ⟨wf, le_refl e, hone ▸ .one, hmemo⟩
    rename_i hone
    split
    · rename_i l hl
      exact ⟨wf, le_refl e, (hmemo v l hl).2, hmemo⟩
    split
    · rename_i hops
      have wf' := hleaf.wf v wf
      have hle := hleaf.grows v wf
      have hops' := (Graph.operands?_eq_of_le (graph_le hle) hv.2).trans hops
      have himage : Image leaf (leaf v e).2 v (leaf v e).1 :=
        .free hone hops' (hleaf.again wf wf' hv (le_refl _))
      refine ⟨wf', hle, himage, ?_⟩
      exact (hmemo.of_le hleaf wf wf' hle).insert (Graph.mem_of_le (graph_le hle) hv) himage
    · rename_i p hops
      obtain ⟨ha, hb⟩ := wf.operands_mem hv hops
      have hleft := ih p.1.1.var p.2.1 wf ha hmemo
      have ha₁ := Graph.mem_of_le (graph_le hleft.grows) ha
      have hright := ih p.1.2.var p.2.2 hleft.wf (Graph.mem_of_le (graph_le hleft.grows) hb)
        hleft.images
      have hle₂ := le_trans hleft.grows hright.grows
      have himagea := hleft.image.of_le hleaf hleft.wf hright.wf hright.grows ha₁
      have ha₂ := Graph.mem_of_le (graph_le hle₂) ha
      have hb₂ := Graph.mem_of_le (graph_le hle₂) hb
      have hgate := and_remakes hright.wf
        (Graph.flipIf_mem_iff (c := p.1.1.negated).2 (himagea.mem hleaf hright.wf ha₂))
        (Graph.flipIf_mem_iff (c := p.1.2.negated).2 (hright.image.mem hleaf hright.wf hb₂))
      have hle := le_trans hle₂ hgate.grows
      have himage := Image.gate hone
        ((Graph.operands?_eq_of_le (graph_le hle) hv.2).trans hops)
        (himagea.of_le hleaf hright.wf hgate.wf hgate.grows ha₂)
        (hright.image.of_le hleaf hright.wf hgate.wf hgate.grows hb₂)
        (hgate.again _ hgate.wf (le_refl _) hgate.vars)
      refine ⟨hgate.wf, hle, himage, ?_⟩
      exact (hright.images.of_le hleaf hright.wf hgate.wf hgate.grows).insert
        (Graph.mem_of_le (graph_le hle) hv) himage

/-- A node that has an image is rebuilt into it, and nothing is added. -/
theorem Image.rebuildNode_eq {e : Encoding} (wf : e.WellFormed) {v : Nat} {l : Lit}
    (h : Image leaf e v l) (hv : Lit.pos v ∈ e.graph) {memo : Std.HashMap Nat Lit}
    (hmemo : Images leaf e memo) : ∃ memo', rebuildNode leaf v memo e = ((l, memo'), e) := by
  induction h generalizing memo with
  | one => exact ⟨memo, by rw [Encoding.rebuildNode_eq, if_pos rfl]⟩
  | @free v l hone hops hmade =>
    rw [Encoding.rebuildNode_eq, if_neg hone]
    cases hm : memo[v]? with
    | some m => exact ⟨memo, by rw [(hmemo v m hm).2.unique (.free hone hops hmade)]⟩
    | none => exact ⟨memo.insert v l, by simp only [hops, hmade]⟩
  | @gate v a b l p hone hops ha hb hmade iha ihb =>
    rw [Encoding.rebuildNode_eq, if_neg hone]
    cases hm : memo[v]? with
    | some m => exact ⟨memo, by rw [(hmemo v m hm).2.unique (.gate hone hops ha hb hmade)]⟩
    | none =>
      obtain ⟨hva, hvb⟩ := wf.operands_mem hv hops
      have hleft := rebuildNode_reimages hleaf p.1.1.var wf hva hmemo
      obtain ⟨memoa, hela⟩ := iha hva hmemo
      rw [hela] at hleft
      obtain ⟨memob, helb⟩ := ihb hvb hleft.images
      refine ⟨memob.insert v l, ?_⟩
      simp only [hops, hela, helb, hmade]

theorem rebuildNode_congr (v : Nat) {e : Encoding} (wf : e.WellFormed) (hv : Lit.pos v ∈ e.graph)
    {memo memo' : Std.HashMap Nat Lit} (hmemo : Images leaf e memo)
    (hmemo' : Images leaf e memo') :
    (rebuildNode leaf v memo e).1.1 = (rebuildNode leaf v memo' e).1.1 ∧
      (rebuildNode leaf v memo e).2 = (rebuildNode leaf v memo' e).2 := by
  induction v using Nat.strongRecOn generalizing e memo memo' with
  | _ v ih =>
    by_cases himage : ∃ l, Image leaf e v l
    · obtain ⟨l, hl⟩ := himage
      obtain ⟨_, heq⟩ := hl.rebuildNode_eq hleaf wf hv hmemo
      obtain ⟨_, heq'⟩ := hl.rebuildNode_eq hleaf wf hv hmemo'
      rw [heq, heq']
      exact ⟨rfl, rfl⟩
    have hone : v ≠ 1 := by
      rintro rfl
      exact himage ⟨_, .one⟩
    have hnew : ∀ {memo : Std.HashMap Nat Lit}, Images leaf e memo → memo[v]? = none := by
      intro memo hmemo
      cases hm : memo[v]? with
      | none => rfl
      | some m => exact absurd ⟨m, (hmemo v m hm).2⟩ himage
    rw [rebuildNode_eq, rebuildNode_eq, if_neg hone, if_neg hone, hnew hmemo, hnew hmemo']
    cases hops : e.graph.operands? v with
    | none => exact ⟨rfl, rfl⟩
    | some p =>
      obtain ⟨hva, hvb⟩ := wf.operands_mem hv hops
      have hleft := rebuildNode_reimages hleaf p.1.1.var wf hva hmemo
      have hleft' := rebuildNode_reimages hleaf p.1.1.var wf hva hmemo'
      obtain ⟨hlita, henca⟩ := ih p.1.1.var p.2.1 wf hva hmemo hmemo'
      obtain ⟨hlitb, hencb⟩ := ih p.1.2.var p.2.2 hleft.wf
        (Graph.mem_of_le (graph_le hleft.grows) hvb) hleft.images (henca ▸ hleft'.images)
      dsimp only
      rw [← henca, ← hlita, ← hlitb, ← hencb]
      exact ⟨rfl, rfl⟩

end

end Encoding

end Lasso
