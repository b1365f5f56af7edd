import Mathlib.Data.List.Forall2
import Lasso.Proofs.Graph.Canonical
import Lasso.Proofs.Graph.Cone

/-! # Expressions that are alike

Expressions of two graphs are alike if they are the same up to the numbers of their nodes and the
order of operands.  In graphs without superfluous gates an expression is like no more than one of
the other graph, and connectives of expressions that are alike are alike.
-/

namespace Lasso

set_option autoImplicit false

theorem Lit.code_inj {a b : Lit} (h : a.code = b.code) : a = b := by
  obtain ⟨v, m⟩ := a
  obtain ⟨w, n⟩ := b
  simp only [code] at h
  cases m <;> cases n <;> simp at h ⊢ <;> omega

@[simp] theorem Lit.not_not (a : Lit) : a.not.not = a := by
  cases a
  simp [Lit.not]

theorem Lit.flipIf_true (l : Lit) : l.flipIf true = l.not := by
  simp [Lit.not, Lit.flipIf]

theorem Lit.eq_not_comm {a b : Lit} (h : a = b.not) : b = a.not := by
  rw [h, Lit.not_not]

theorem Lit.eq_constant {a : Lit} (h : a.var = 1) : a = Graph.truth ∨ a = Graph.falsity :=
  Lit.eq_or_eq_not (b := Graph.truth) h

namespace Graph

theorem and_self (a : Lit) : and a a = pure a := if_pos rfl

theorem and_not_self (b : Lit) : and b.not b = pure falsity := by
  have hne : b.not ≠ b := by
    obtain ⟨v, n⟩ := b
    cases n <;> simp [Lit.not]
  rw [and, if_neg hne, if_pos rfl]

theorem and_comm (a b : Lit) : and a b = and b a := by
  by_cases hab : a = b
  · rw [hab]
  by_cases hnot : a = b.not
  · have hba := and_not_self b.not
    rw [Lit.not_not] at hba
    rw [hnot, and_not_self, hba]
  have hcode : a.code ≠ b.code := fun h => hab (Lit.code_inj h)
  rw [and, and, if_neg hab, if_neg hnot, if_neg (Ne.symm hab),
    if_neg fun h => hnot (Lit.eq_not_comm h)]
  rcases Nat.lt_or_gt_of_ne hcode with hlt | hlt
  · rw [if_pos hlt, if_neg (Nat.lt_asymm hlt)]
  · rw [if_pos hlt, if_neg (Nat.lt_asymm hlt)]

theorem and_eq_of_var_lt {a b : Lit} (h : a.var < b.var) :
    and a b = if a = falsity then pure falsity else if a = truth then pure b else gate a b := by
  have hvar : a.var ≠ b.var := Nat.ne_of_lt h
  have hab : a ≠ b := fun heq => hvar (congrArg Lit.var heq)
  have hnot : a ≠ b.not := fun heq => hvar ((congrArg Lit.var heq).trans (Lit.var_not b))
  rw [and, if_neg hab, if_neg hnot, if_pos (Lit.code_le_of_var_lt h)]

section

variable {g : Graph} {b : Lit} (hb : b ∈ g)

include hb

theorem truth_and : and truth b g = (b, g) := by
  by_cases hone : b.var = 1
  · rcases Lit.eq_constant hone with rfl | rfl
    · rw [and_self]
      rfl
    · exact congrFun (and_not_self falsity) g
  · have hlt : truth.var < b.var := Nat.lt_of_le_of_ne hb.1 (Ne.symm hone)
    rw [and_eq_of_var_lt hlt, if_neg (by decide), if_pos rfl]
    rfl

theorem falsity_and : and falsity b g = (falsity, g) := by
  by_cases hone : b.var = 1
  · rcases Lit.eq_constant hone with rfl | rfl
    · exact congrFun (and_not_self truth) g
    · rw [and_self]
      rfl
  · have hlt : falsity.var < b.var := Nat.lt_of_le_of_ne hb.1 (Ne.symm hone)
    rw [and_eq_of_var_lt hlt, if_pos rfl]
    rfl

end

/-- A conjunction that is a gate has the operands of the conjunction, in one order or the other. -/
theorem nodes_and {g : Graph} (wf : g.WellFormed) {a b : Lit} (ha : a.var ≠ 1) (hb : b.var ≠ 1)
    (hab : a.var ≠ b.var) :
    ∃ v c d, (and a b g).1 = .pos v ∧ (and a b g).2.nodes[v]? = some (.gate c d) ∧
      (c = a ∧ d = b ∨ c = b ∧ d = a) := by
  have hgate : ∀ c d : Lit, (gate c d g).1 = .pos (gate c d g).1.var := by
    intro c d
    unfold gate
    cases g.gates[(c, d)]? <;> rfl
  have hordered : ∀ c d : Lit, c.var ≠ 1 → c.var < d.var → and c d = gate c d := by
    intro c d hc hlt
    have htruth : c ≠ truth := fun h => hc (congrArg Lit.var h)
    have hfalsity : c ≠ falsity := fun h => hc (congrArg Lit.var h)
    rw [and_eq_of_var_lt hlt, if_neg hfalsity, if_neg htruth]
  rcases Nat.lt_or_gt_of_ne hab with hlt | hlt
  · rw [hordered a b ha hlt]
    exact ⟨_, a, b, hgate a b, nodes_gate wf a b, .inl ⟨rfl, rfl⟩⟩
  · rw [and_comm, hordered b a hb hlt]
    exact ⟨_, b, a, hgate b a, nodes_gate wf b a, .inr ⟨rfl, rfl⟩⟩

/-- Expressions are alike if they are built in the same way from free variables that belong
together.  The operands of a gate may come in either order. -/
inductive Alike (P : Nat → Nat → Prop) (g h : Graph) : Lit → Lit → Prop where
  | constant (n : Bool) : Alike P g h ⟨1, n⟩ ⟨1, n⟩
  | input (n : Bool) {v w : Nat} (hv : g.nodes[v]? = some .input)
    (hw : h.nodes[w]? = some .input) (hP : P v w) : Alike P g h ⟨v, n⟩ ⟨w, n⟩
  | gate (n : Bool) {v w : Nat} {a b c d : Lit} (hv : g.nodes[v]? = some (.gate a b))
    (hw : h.nodes[w]? = some (.gate c d)) (hac : Alike P g h a c) (hbd : Alike P g h b d) :
    Alike P g h ⟨v, n⟩ ⟨w, n⟩
  | crossed (n : Bool) {v w : Nat} {a b c d : Lit} (hv : g.nodes[v]? = some (.gate a b))
    (hw : h.nodes[w]? = some (.gate c d)) (had : Alike P g h a d) (hbc : Alike P g h b c) :
    Alike P g h ⟨v, n⟩ ⟨w, n⟩

section

variable {P Q : Nat → Nat → Prop} {g g' h h' : Graph} {a b c d : Lit}

theorem Alike.flipIf (hac : Alike P g h a c) (n : Bool) :
    Alike P g h (a.flipIf n) (c.flipIf n) := by
  cases hac with
  | constant => exact .constant _
  | input _ hv hw hP => exact .input _ hv hw hP
  | gate _ hv hw hac hbd => exact .gate _ hv hw hac hbd
  | crossed _ hv hw had hbc => exact .crossed _ hv hw had hbc

theorem Alike.not (hac : Alike P g h a c) : Alike P g h a.not c.not := by
  rw [← Lit.flipIf_true, ← Lit.flipIf_true]
  exact hac.flipIf true

theorem Alike.symm (hac : Alike P g h a c) : Alike (fun v w => P w v) h g c a := by
  induction hac with
  | constant n => exact .constant n
  | input n hv hw hP => exact .input n hw hv hP
  | gate n hv hw _ _ ihac ihbd => exact .gate n hw hv ihac ihbd
  | crossed n hv hw _ _ ihad ihbc => exact .crossed n hw hv ihbc ihad

theorem Alike.mono (hac : Alike P g h a c) (hg : g ≤ g') (hh : h ≤ h')
    (hPQ : ∀ v w, P v w → Q v w) : Alike Q g' h' a c := by
  have hkeep : ∀ {k k' : Graph} {v : Nat} {n : Node}, k ≤ k' → k.nodes[v]? = some n →
      k'.nodes[v]? = some n := fun hle hn =>
    (nodes_eq_of_le hle (Array.getElem?_eq_some_iff.1 hn).1).trans hn
  induction hac with
  | constant n => exact .constant n
  | input n hv hw hP => exact .input n (hkeep hg hv) (hkeep hh hw) (hPQ _ _ hP)
  | gate n hv hw _ _ ihac ihbd => exact .gate n (hkeep hg hv) (hkeep hh hw) ihac ihbd
  | crossed n hv hw _ _ ihad ihbc => exact .crossed n (hkeep hg hv) (hkeep hh hw) ihad ihbc

theorem Alike.right_unique (wfg : g.WellFormed) (wfh : h.WellFormed) (hreduced : h.Reduced)
    (hP : ∀ v w w', P v w → P v w' → w = w') (hac : Alike P g h a c) (had : Alike P g h a d) :
    c = d := by
  -- no gate has the operands of another in the other order
  have hsame : ∀ {v w : Nat} {a b : Lit}, h.nodes[v]? = some (.gate a b) →
      h.nodes[w]? = some (.gate a b) → v = w := fun hv hw =>
    Option.some.inj (((wfh.gates _ _ _).2 hv).symm.trans ((wfh.gates _ _ _).2 hw))
  have hturned : ∀ {v w : Nat} {a b : Lit}, h.nodes[v]? = some (.gate a b) →
      h.nodes[w]? ≠ some (.gate b a) := fun hv hw =>
    Nat.lt_asymm (hreduced _ _ _ hv).2 (hreduced _ _ _ hw).2
  induction hac generalizing d with
  | constant n =>
    cases had with
    | constant => rfl
    | input _ hv => exact absurd rfl (wfg.ne_one_of_input hv)
    | gate _ hv | crossed _ hv => exact absurd rfl (wfg.ne_one_of_gate hv)
  | input n hv _ hvw =>
    cases had with
    | constant => exact absurd rfl (wfg.ne_one_of_input hv)
    | input _ _ _ hvw' => rw [hP _ _ _ hvw hvw']
    | gate _ hv' | crossed _ hv' => cases hv.symm.trans hv'
  | gate n hv hw _ _ ihac ihbd =>
    cases had with
    | constant => exact absurd rfl (wfg.ne_one_of_gate hv)
    | input _ hv' => cases hv.symm.trans hv'
    | gate _ hv' hw' hac' hbd' =>
      cases hv.symm.trans hv'
      rw [ihac hac', ihbd hbd'] at hw
      rw [hsame hw hw']
    | crossed _ hv' hw' had' hbc' =>
      cases hv.symm.trans hv'
      rw [ihac had', ihbd hbc'] at hw
      exact absurd hw' (hturned hw)
  | crossed n hv hw _ _ ihad ihbc =>
    cases had with
    | constant => exact absurd rfl (wfg.ne_one_of_gate hv)
    | input _ hv' => cases hv.symm.trans hv'
    | gate _ hv' hw' hac' hbd' =>
      cases hv.symm.trans hv'
      rw [ihad hac', ihbc hbd'] at hw
      exact absurd hw' (hturned hw)
    | crossed _ hv' hw' had' hbc' =>
      cases hv.symm.trans hv'
      rw [ihad had', ihbc hbc'] at hw
      rw [hsame hw hw']

theorem Alike.var_eq_one (wfh : h.WellFormed) (hac : Alike P g h a c) (hc : c.var = 1) :
    a = c := by
  cases hac with
  | constant => rfl
  | input _ _ hw => exact absurd hc (wfh.ne_one_of_input hw)
  | gate _ _ hw | crossed _ _ hw => exact absurd hc (wfh.ne_one_of_gate hw)

theorem Alike.mem (wfg : g.WellFormed) (hac : Alike P g h a c) : a ∈ g := by
  cases hac with
  | constant => exact wfg.truth_mem
  | input _ hv => exact wfg.pos_mem_of_input hv
  | gate _ hv | crossed _ hv =>
    have hpos := (wfg.operands _ _ _ hv).1
    exact ⟨Nat.lt_of_le_of_lt (Nat.zero_le _) hpos.2, (Array.getElem?_eq_some_iff.1 hv).1⟩

/-- What is built over free variables of a kind is like what is built over those that belong to
them. -/
theorem Alike.over {R S : Nat → Prop} (wf : g.WellFormed) (hRS : ∀ v w, P v w → R v → S w)
    (hac : Alike P g h a c) (ha : g.Over R a.var) : h.Over S c.var := by
  induction hac with
  | constant => exact .constant
  | input _ hv hw hP =>
    cases ha with
    | constant => exact absurd rfl (wf.ne_one_of_input hv)
    | leaf _ hR => exact .leaf hw (hRS _ _ hP hR)
    | gate hv' => cases hv.symm.trans hv'
  | gate _ hv hw _ _ ihac ihbd =>
    obtain ⟨ha, hb⟩ := ha.operands wf hv
    exact .gate hw (ihac ha) (ihbd hb)
  | crossed _ hv hw _ _ ihad ihbc =>
    obtain ⟨ha, hb⟩ := ha.operands wf hv
    exact .gate hw (ihbc hb) (ihad ha)

end

/-- Graphs in which expressions are like no more than one of the other graph. -/
structure Comparable (P : Nat → Nat → Prop) (g h : Graph) : Prop where
  left : g.WellFormed
  right : h.WellFormed
  left_reduced : g.Reduced
  right_reduced : h.Reduced
  left_unique : ∀ v v' w, P v w → P v' w → v = v'
  right_unique : ∀ v w w', P v w → P v w' → w = w'

/-- Constructions in two graphs that lead to expressions that are alike. -/
structure Likens (P : Nat → Nat → Prop) (g h : Graph) (r s : Lit × Graph) : Prop where
  comparable : Comparable P r.2 s.2
  left_grows : g ≤ r.2
  right_grows : h ≤ s.2
  alike : Alike P r.2 s.2 r.1 s.1

section

variable {P : Nat → Nat → Prop} {g h : Graph} {a b c d : Lit}

theorem Comparable.right_eq (hgh : Comparable P g h) (hac : Alike P g h a c)
    (had : Alike P g h a d) : c = d :=
  hac.right_unique hgh.left hgh.right hgh.right_reduced hgh.right_unique had

theorem Comparable.left_eq (hgh : Comparable P g h) (hac : Alike P g h a c)
    (hbc : Alike P g h b c) : a = b :=
  Alike.right_unique (P := fun v w => P w v) hgh.right hgh.left hgh.left_reduced
    (fun w v v' hv hv' => hgh.left_unique v v' w hv hv') hac.symm hbc.symm

theorem Likens.here (hgh : Comparable P g h) (hac : Alike P g h a c) :
    Likens P g h (a, g) (c, h) :=
  ⟨hgh, le_refl g, le_refl h, hac⟩

theorem Likens.not {r s : Lit × Graph} (hrs : Likens P g h r s) :
    Likens P g h (r.1.not, r.2) (s.1.not, s.2) :=
  ⟨hrs.comparable, hrs.left_grows, hrs.right_grows, hrs.alike.not⟩

theorem Likens.after {r s r' s' : Lit × Graph} (hrs : Likens P g h r s)
    (hrs' : Likens P r.2 s.2 r' s') : Likens P g h r' s' :=
  ⟨hrs'.comparable, le_trans hrs.left_grows hrs'.left_grows,
    le_trans hrs.right_grows hrs'.right_grows, hrs'.alike⟩

theorem Likens.keep {r s : Lit × Graph} (hrs : Likens P g h r s) (hac : Alike P g h a c) :
    Alike P r.2 s.2 a c :=
  hac.mono hrs.left_grows hrs.right_grows fun _ _ hP => hP

theorem and_likens (hgh : Comparable P g h) (hac : Alike P g h a c) (hbd : Alike P g h b d) :
    Likens P g h (and a b g) (and c d h) := by
  have ha := hac.mem hgh.left
  have hb := hbd.mem hgh.left
  have hc := hac.symm.mem hgh.right
  have hd := hbd.symm.mem hgh.right
  have hleft := and_computes hgh.left ha hb
  have hright := and_computes hgh.right hc hd
  refine ⟨⟨hleft.wf, hright.wf, hgh.left_reduced.and ha hb, hgh.right_reduced.and hc hd,
    hgh.left_unique, hgh.right_unique⟩, hleft.grows, hright.grows, ?_⟩
  -- operands that are equal, opposite or constant are so in both graphs, since likeness is unique
  by_cases hab : a = b
  · obtain rfl := hab
    obtain rfl := hgh.right_eq hac hbd
    rw [and_self, and_self]
    exact hac
  by_cases hnot : a = b.not
  · obtain rfl := hnot
    obtain rfl := hgh.right_eq hac hbd.not
    rw [and_not_self, and_not_self]
    exact .constant _
  by_cases hone : a.var = 1
  · obtain rfl := hac.symm.var_eq_one hgh.left hone
    rcases Lit.eq_constant hone with rfl | rfl
    · rw [truth_and hb, truth_and hd]
      exact hbd
    · rw [falsity_and hb, falsity_and hd]
      exact .constant _
  by_cases hone' : b.var = 1
  · obtain rfl := hbd.symm.var_eq_one hgh.left hone'
    rw [and_comm a, and_comm c]
    rcases Lit.eq_constant hone' with rfl | rfl
    · rw [truth_and ha, truth_and hc]
      exact hac
    · rw [falsity_and ha, falsity_and hc]
      exact .constant _
  have hvars : a.var ≠ b.var := fun heq => (Lit.eq_or_eq_not heq).elim hab hnot
  have hvars' : c.var ≠ d.var := by
    intro heq
    rcases Lit.eq_or_eq_not heq with rfl | rfl
    · exact hab (hgh.left_eq hac hbd)
    · exact hnot (hgh.left_eq hac hbd.not)
  have hc' : c.var ≠ 1 := fun heq => hone (hac.var_eq_one hgh.right heq ▸ heq)
  have hd' : d.var ≠ 1 := fun heq => hone' (hbd.var_eq_one hgh.right heq ▸ heq)
  have hac' := hac.mono (Q := P) hleft.grows hright.grows fun _ _ hP => hP
  have hbd' := hbd.mono (Q := P) hleft.grows hright.grows fun _ _ hP => hP
  obtain ⟨v, a', b', hv, hnode, hab'⟩ := nodes_and hgh.left hone hone' hvars
  obtain ⟨w, c', d', hw, hnode', hcd'⟩ := nodes_and hgh.right hc' hd' hvars'
  rw [hv, hw]
  obtain ⟨rfl, rfl⟩ | ⟨rfl, rfl⟩ := hab' <;> obtain ⟨rfl, rfl⟩ | ⟨rfl, rfl⟩ := hcd'
  · exact .gate false hnode hnode' hac' hbd'
  · exact .crossed false hnode hnode' hac' hbd'
  · exact .crossed false hnode hnode' hbd' hac'
  · exact .gate false hnode hnode' hbd' hac'

theorem or_likens (hgh : Comparable P g h) (hac : Alike P g h a c) (hbd : Alike P g h b d) :
    Likens P g h (or a b g) (or c d h) :=
  (and_likens hgh hac.not hbd.not).not

theorem or_and_likens (hgh : Comparable P g h) {a₁ b₁ a₂ b₂ c₁ d₁ c₂ d₂ : Lit}
    (ha₁ : Alike P g h a₁ c₁) (hb₁ : Alike P g h b₁ d₁) (ha₂ : Alike P g h a₂ c₂)
    (hb₂ : Alike P g h b₂ d₂) :
    Likens P g h
      ((do let left ← and a₁ b₁; let right ← and a₂ b₂; or left right : StateM Graph Lit) g)
      ((do let left ← and c₁ d₁; let right ← and c₂ d₂; or left right : StateM Graph Lit) h) := by
  have hleft := and_likens hgh ha₁ hb₁
  have hright := and_likens hleft.comparable (hleft.keep ha₂) (hleft.keep hb₂)
  exact hleft.after (hright.after (or_likens hright.comparable (hright.keep hleft.alike)
    hright.alike))

theorem xor_likens (hgh : Comparable P g h) (hac : Alike P g h a c) (hbd : Alike P g h b d) :
    Likens P g h (xor a b g) (xor c d h) :=
  or_and_likens hgh hac hbd.not hac.not hbd

theorem ite_likens (hgh : Comparable P g h) {k l : Lit} (hkl : Alike P g h k l)
    (hac : Alike P g h a c) (hbd : Alike P g h b d) :
    Likens P g h (ite k a b g) (ite l c d h) :=
  or_and_likens hgh hkl hac hkl.not hbd

theorem foldlM_likens {join : Lit → Lit → StateM Graph Lit}
    (hjoin : ∀ {g h : Graph} {a b c d : Lit}, Comparable P g h → Alike P g h a c →
      Alike P g h b d → Likens P g h (join a b g) (join c d h))
    {ls ms : List Lit} (hgh : Comparable P g h) (hac : Alike P g h a c)
    (hlm : List.Forall₂ (Alike P g h) ls ms) :
    Likens P g h (ls.foldlM join a g) (ms.foldlM join c h) := by
  induction ls generalizing g h a c ms with
  | nil =>
    cases hlm
    exact .here hgh hac
  | cons l ls ih =>
    cases hlm with
    | cons hl hls =>
      have hstep := hjoin hgh hac hl
      exact hstep.after (ih hstep.comparable hstep.alike (hls.imp fun _ _ hlm => hstep.keep hlm))

end

end Graph

end Lasso
