import Mathlib.Logic.Relation
import Lasso.Proofs.Machine.Locality
import Lasso.Proofs.Machine.Shifting

/-! # Next forms, whatever was asked for before

A journal is a ledger with all next forms that are remembered.  Whatever was declared, converted and
moved in time before, and whatever failed, a journal leads to the encoding that conversions without
a memory lead to.  So next forms and instances commute, and what becomes of a condition depends on
the declarations only.
-/

namespace Lasso

set_option autoImplicit false

open Encoding

/-- A ledger with the next forms of nodes so far. -/
structure Journal extends Ledger where
  nexts : Std.HashMap Nat Lit

namespace Journal

def start : Journal := ⟨⟨∅, {}⟩, {}⟩

/-- The next form of an expression.  If there is none, what is remembered is given up. -/
def shift (l : Lit) (s : Journal) : Except ShiftError Lit × Journal :=
  let r := shiftNode l.var ⟨s.nexts, none⟩ s.encoding
  match r.1.2.error with
  | some err => (.error err, ⟨⟨r.2, s.instances⟩, {}⟩)
  | none => (.ok (r.1.1.flipIf l.negated), ⟨⟨r.2, s.instances⟩, r.1.2.nexts⟩)

def instantiate (l : Lit) (time : UInt64) (s : Journal) : Lit × Journal :=
  ((Ledger.instantiate l time s.toLedger).1, ⟨(Ledger.instantiate l time s.toLedger).2, s.nexts⟩)

def connect : Connective → Bool → List Lit → Journal → Except Malformed Lit × Journal
  | .next, true, [a], s => ((shift a s).1.mapError .shift, (shift a s).2)
  | c, permitNext, ls, s =>
    (((Encoding.connect c permitNext ls).run s.encoding).1,
      ⟨⟨((Encoding.connect c permitNext ls).run s.encoding).2, s.instances⟩, s.nexts⟩)

section

variable {α : Type}

mutual

def condition (permitNext : Bool) : SExpr α → Journal → Except (ConditionError α) Lit × Journal
  | .symbol note name, s =>
    (match s.encoding.conditionName? name with
      | some l => .ok l
      | none => .error (.unknownVariable (.symbol note name)), s)
  | .list note (.symbol note' name :: args), s =>
    match conditions permitNext args s with
    | (.error err, s₁) => (.error err, s₁)
    | (.ok ls, s₁) =>
      match Connective.ofName? name with
      | none =>
        (.error (.malformed (.list note (.symbol note' name :: args)) (.unknownOperator name)), s₁)
      | some c =>
        ((connect c permitNext ls s₁).1.mapError
          (.malformed (.list note (.symbol note' name :: args))), (connect c permitNext ls s₁).2)
  | x@(.list _ _), s => (.error (.malformed x .noOperator), s)

def conditions (permitNext : Bool) :
    List (SExpr α) → Journal → Except (ConditionError α) (List Lit) × Journal
  | [], s => (.ok [], s)
  | x :: xs, s =>
    match condition permitNext x s with
    | (.error err, s₁) => (.error err, s₁)
    | (.ok l, s₁) => ((conditions permitNext xs s₁).1.map (l :: ·), (conditions permitNext xs s₁).2)

end

/-- What a call leads to, whether or not it succeeds. -/
def run : Ledger.Call α → Journal → Journal
  | .convert permitNext x, s => (condition permitNext x s).2
  | c, s => ⟨c.run s.toLedger, s.nexts⟩

end

structure Sound (s : Journal) : Prop where
  ledger : ∃ asked, s.toLedger.Sound asked
  reduced : s.encoding.graph.Reduced
  images : Images leafNext s.encoding s.nexts
  shiftable : ∀ w ∈ s.nexts, s.encoding.Shiftable w

/-- What is done with a memory is what is done without one, and keeps the memory right. -/
structure Recalls {β : Type} (s : Journal) (r : β × Journal) (r' : β × Encoding) : Prop where
  same : (r.1, r.2.encoding) = r'
  sound : r.2.Sound
  grows : s.encoding ≤ r.2.encoding

theorem sound_start : start.Sound where
  ledger := ⟨[], (Ledger.History.start (α := Unit)).sound⟩
  reduced := Graph.reduced_empty
  images := images_empty _ _
  shiftable w hw := by simp [start] at hw

section

variable {s : Journal} (hs : s.Sound)

include hs

theorem Sound.wf : s.encoding.WellFormed := by
  obtain ⟨_, h⟩ := hs.ledger
  exact h.wf

theorem Sound.twins : s.encoding.Twins s.encoding :=
  ⟨hs.wf, hs.wf, hs.reduced, hs.reduced, rfl⟩

theorem Sound.keep {k : Ledger} (hk : ∃ asked, k.Sound asked) (hle : s.encoding ≤ k.encoding)
    (hreduced : k.encoding.graph.Reduced) : Sound ⟨k, s.nexts⟩ where
  ledger := hk
  reduced := hreduced
  images := by
    obtain ⟨_, h⟩ := hk
    exact hs.images.of_le leafNext_settles hs.wf h.wf hle
  shiftable w hw := (hs.shiftable w hw).of_le hs.wf hle

theorem Sound.grow {e : Encoding} (wf : e.WellFormed) (hle : s.encoding ≤ e)
    (hreduced : e.graph.Reduced) : Sound ⟨⟨e, s.instances⟩, s.nexts⟩ := by
  obtain ⟨_, h⟩ := hs.ledger
  exact hs.keep ⟨e.timeline.keys, h.grow wf hle fun k => Std.HashMap.mem_keys.symm⟩ hle hreduced

theorem Sound.shift {l : Lit} (hl : l ∈ s.encoding.graph) :
    s.Recalls (shift l s) (Encoding.shift l s.encoding) := by
  have wf := hs.wf
  have hmade := shiftNode_reimages l.var (s := ⟨s.nexts, none⟩) wf hl hs.images
  have herror := error_shiftNode wf hl hs.images hs.shiftable
  obtain ⟨hlit, henc⟩ := rebuildNode_congr leafNext_settles l.var wf hl hs.images
    (images_empty leafNext s.encoding)
  have herase := rebuildNode_eq_shiftNode l.var ⟨s.nexts, none⟩ s.encoding
  have hreduced := rebuildNode_reduced leafNext_settles leafNext_reduced l.var wf hs.reduced hl
    hs.images
  rw [herase] at hlit henc hreduced
  dsimp only at hmade herror hlit henc hreduced
  have hplain := shift_eq l s.encoding
  rw [← herror, rebuild_eq, ← hlit, ← henc] at hplain
  have hledger := (hs.grow hmade.wf hmade.grows hreduced).ledger
  have hnexts := fun hshiftable w hw =>
    (shiftable_of_shiftNode wf hl hs.images hs.shiftable hshiftable w hw).of_le wf hmade.grows
  rw [hplain, Journal.shift]
  cases herr : (shiftNode l.var ⟨s.nexts, none⟩ s.encoding).1.2.error with
  | some err =>
    exact ⟨rfl, ⟨hledger, hreduced, images_empty _ _, by simp⟩, hmade.grows⟩
  | none =>
    rw [herr] at hplain
    have hshiftable := ((shift_eq_ok_iff wf hl).1 (congrArg Prod.fst hplain)).1
    exact ⟨rfl, ⟨hledger, hreduced, hmade.images, hnexts hshiftable⟩, hmade.grows⟩

theorem Sound.instantiate {l : Lit} (hl : l ∈ s.encoding.graph) (time : UInt64) :
    s.Recalls (instantiate l time s) (Encoding.instantiate l time s.encoding) := by
  obtain ⟨asked, h⟩ := hs.ledger
  have hmade := rebuildNode_reimages (leafAt_settles time) l.var h.wf hl (h.images time)
  obtain ⟨hlit, henc⟩ := rebuildNode_congr (leafAt_settles time) l.var h.wf hl (h.images time)
    (images_empty _ _)
  have hreduced := rebuildNode_reduced (leafAt_settles time)
    (fun h => leafAt_reduced h time) l.var hs.wf
    hs.reduced hl (h.images time)
  exact ⟨Prod.ext (congrArg (Lit.flipIf l.negated) hlit) henc,
    hs.keep ⟨_, h.instantiate hl time⟩ hmade.grows hreduced, hmade.grows⟩

theorem Sound.shift_imageOf {l m : Lit} (hl : l ∈ s.encoding.graph)
    (hm : (Journal.shift l s).1 = .ok m) {e : Encoding} (wf : e.WellFormed)
    (hle : (Journal.shift l s).2.encoding ≤ e) :
    e.Shiftable l.var ∧ ImageOf leafNext e l m := by
  obtain ⟨hsame, -, hgrows⟩ := hs.shift hl
  have hplain : (Encoding.shift l s.encoding).1 = .ok m := hsame ▸ hm
  obtain ⟨hshiftable, rfl⟩ := (shift_eq_ok_iff hs.wf hl).1 hplain
  refine ⟨hshiftable.of_le hs.wf (le_trans hgrows hle), ?_⟩
  rw [shift_eq] at hsame
  rw [(Prod.mk.inj hsame).2] at hle
  exact rebuild_imageOf leafNext_settles hs.wf hl wf hle

theorem Sound.instantiate_imageOf {l : Lit} (hl : l ∈ s.encoding.graph) (time : UInt64)
    {e : Encoding} (wf : e.WellFormed) (hle : (Journal.instantiate l time s).2.encoding ≤ e) :
    ImageOf (leafAt time) e l (Journal.instantiate l time s).1 := by
  obtain ⟨hlit, henc⟩ := Prod.mk.inj (hs.instantiate hl time).same
  rw [henc] at hle
  rw [hlit]
  exact rebuild_imageOf (leafAt_settles time) hs.wf hl wf hle

theorem Sound.connect (c : Connective) (p : Bool) {ls : List Lit}
    (hls : List.Forall₂ (s.encoding.Alike s.encoding) ls ls) :
    s.Recalls (connect c p ls s) ((Encoding.connect c p ls).run s.encoding) := by
  have hplain := hs.twins.connect c p hls
  have hpass : s.Recalls (((Encoding.connect c p ls).run s.encoding).1,
      (⟨⟨((Encoding.connect c p ls).run s.encoding).2, s.instances⟩, s.nexts⟩ : Journal))
      ((Encoding.connect c p ls).run s.encoding) :=
    ⟨rfl, hs.grow hplain.twins.left hplain.left_grows hplain.twins.left_reduced, hplain.left_grows⟩
  unfold Journal.connect
  split
  · rename_i a
    obtain _ | ⟨ha, _⟩ := hls
    obtain ⟨hsame, hsound, hgrows⟩ := hs.shift (Graph.Alike.mem hs.wf.graph ha)
    refine ⟨?_, hsound, hgrows⟩
    rw [connect_next_run, ← hsame]
  · exact hpass

end

section

variable {α : Type}

mutual

theorem Sound.condition {s : Journal} (hs : s.Sound) (p : Bool) : (x : SExpr α) →
    s.Recalls (condition p x s) ((Encoding.condition p x).run s.encoding)
  | .symbol note name => by
    rw [Journal.condition, condition_symbol_eq]
    exact ⟨rfl, hs, le_refl _⟩
  | .list note (.symbol note' name :: args) => by
    have hargs := Sound.conditions hs p args
    have hplain := hs.twins.conditions p args
    rw [Journal.condition, condition_list_eq]
    rw [← hargs.same] at hplain ⊢
    generalize Journal.conditions p args s = r at hargs hplain ⊢
    obtain ⟨r, s₁⟩ := r
    cases r with
    | error err => exact ⟨rfl, hargs.sound, hargs.grows⟩
    | ok ls =>
      cases Connective.ofName? name with
      | none => exact ⟨rfl, hargs.sound, hargs.grows⟩
      | some c =>
        obtain ⟨-, -, -, ⟨hls⟩⟩ := hplain
        obtain ⟨hsame, hsound, hgrows⟩ := hargs.sound.connect c p hls
        refine ⟨?_, hsound, le_trans hargs.grows hgrows⟩
        dsimp only
        rw [← hsame]
  | .list note [] => by
    rw [Journal.condition, condition_nil_eq]
    · exact ⟨rfl, hs, le_refl _⟩
    · simp
  | .list note (.list note' items :: args) => by
    rw [Journal.condition, condition_nested_eq]
    · exact ⟨rfl, hs, le_refl _⟩
    · simp

theorem Sound.conditions {s : Journal} (hs : s.Sound) (p : Bool) : (xs : List (SExpr α)) →
    s.Recalls (conditions p xs s) ((Encoding.conditions p xs).run s.encoding)
  | [] => by
    rw [Journal.conditions, Encoding.conditions]
    exact ⟨rfl, hs, le_refl _⟩
  | x :: xs => by
    have hx := Sound.condition hs p x
    rw [Journal.conditions, conditions_cons_eq, ← hx.same]
    generalize Journal.condition p x s = r at hx ⊢
    obtain ⟨r, s₁⟩ := r
    cases r with
    | error err => exact ⟨rfl, hx.sound, hx.grows⟩
    | ok l =>
      obtain ⟨hsame, hsound, hgrows⟩ := Sound.conditions hx.sound p xs
      refine ⟨?_, hsound, le_trans hx.grows hgrows⟩
      dsimp only
      rw [← hsame]

end

theorem Sound.run {s : Journal} (hs : s.Sound) (c : Ledger.Call α)
    (hargs : ∀ l ∈ c.arguments, l ∈ s.encoding.graph) :
    (run c s).Sound ∧ s.encoding ≤ (run c s).encoding := by
  obtain ⟨asked, h⟩ := hs.ledger
  have hledger : ∃ asked, (c.run s.toLedger).Sound asked := ⟨_, h.step c hargs⟩
  cases c with
  | declare isInput name =>
    have hle := (declare_grows h.wf isInput name).2
    exact ⟨hs.keep hledger hle (declare_reduced hs.reduced isInput name), hle⟩
  | convert p x =>
    have hx := hs.condition p x
    exact ⟨hx.sound, hx.grows⟩
  | construct o =>
    have hle := le_of_graph_le (e := s.encoding) (o.run_builds h.wf.graph hargs).grows
    exact ⟨hs.keep hledger hle (o.run_reduced h.wf.graph hs.reduced hargs), hle⟩
  | variableAt i t =>
    have hle := (variableAt_builds h.wf i t).grows
    exact ⟨hs.keep hledger hle (variableAt_reduced hs.reduced i t), hle⟩
  | instantiate l time =>
    have hl := hs.instantiate (hargs l List.mem_cons_self) time
    exact ⟨hl.sound, hl.grows⟩

/-- One call about expressions there are, or one expression that is shifted. -/
inductive Step (α : Type) (s : Journal) : Journal → Prop where
  | call (c : Ledger.Call α) (hargs : ∀ l ∈ c.arguments, l ∈ s.encoding.graph) : Step α s (run c s)
  | shift (l : Lit) (hl : l ∈ s.encoding.graph) : Step α s (shift l s).2

abbrev Steps (α : Type) : Journal → Journal → Prop := Relation.ReflTransGen (Step α)

theorem Steps.sound {s s' : Journal} (hs : s.Sound) (h : Steps α s s') :
    s'.Sound ∧ s.encoding ≤ s'.encoding := by
  induction h with
  | refl => exact ⟨hs, le_refl _⟩
  | tail _ hstep ih =>
    obtain ⟨hsound, hle⟩ := ih
    cases hstep with
    | call c hargs =>
      obtain ⟨hsound', hle'⟩ := hsound.run c hargs
      exact ⟨hsound', le_trans hle hle'⟩
    | shift l hl =>
      have hshift := hsound.shift hl
      exact ⟨hshift.sound, le_trans hle hshift.grows⟩

/-- Moved to a time, the next form of an expression is the expression moved to the time after it,
whatever is asked for before, in between and afterwards. -/
theorem Sound.shift_instantiate {s : Journal} (hs : s.Sound) {l m : Lit}
    (hl : l ∈ s.encoding.graph) (hm : (Journal.shift l s).1 = .ok m) (time : UInt64)
    {s₁ s₂ : Journal} (h₁ : Steps α (Journal.shift l s).2 s₁) (hs₂ : s₂.Sound)
    (hl₂ : l ∈ s₂.encoding.graph)
    (h : Steps α (Journal.instantiate m time s₁).2 s₂ ∨
      Steps α (Journal.instantiate l (time + 1) s₂).2 s₁) :
    (Journal.instantiate m time s₁).1 = (Journal.instantiate l (time + 1) s₂).1 := by
  have hshift := hs.shift hl
  obtain ⟨hs₁, hle₁⟩ := h₁.sound hshift.sound
  have hm₁ : m ∈ s₁.encoding.graph := by
    obtain ⟨-, himage⟩ := hs.shift_imageOf hl hm hs₁.wf hle₁
    exact himage.mem leafNext_settles hs₁.wf
      (Graph.mem_of_le (graph_le (le_trans hshift.grows hle₁)) hl)
  have hx := hs₁.instantiate hm₁ time
  have hy := hs₂.instantiate hl₂ (time + 1)
  -- both instances are images in the encoding of whichever call comes last
  have hboth : ∀ e : Encoding, e.WellFormed → (Journal.instantiate m time s₁).2.encoding ≤ e →
      (Journal.instantiate l (time + 1) s₂).2.encoding ≤ e →
      (Journal.instantiate m time s₁).1 = (Journal.instantiate l (time + 1) s₂).1 := by
    intro e wf hxe hye
    obtain ⟨hshiftable, himage⟩ := hs.shift_imageOf hl hm wf (le_trans hle₁ (le_trans hx.grows hxe))
    exact himage.instance_of_next wf (Graph.mem_of_le (graph_le (le_trans hy.grows hye)) hl₂)
      hshiftable (hs₁.instantiate_imageOf hm₁ time wf hxe)
      (hs₂.instantiate_imageOf hl₂ (time + 1) wf hye)
  rcases h with h | h
  · exact hboth _ hy.sound.wf (le_trans (h.sound hx.sound).2 hy.grows) (le_refl _)
  · exact hboth _ hx.sound.wf (le_refl _) (le_trans (h.sound hy.sound).2 hx.grows)

/-- With the same declarations a condition is converted or not, and then into the same expression up
to the numbers of nodes. -/
theorem Sound.condition_matches {s s' : Journal} (hs : s.Sound) (hs' : s'.Sound)
    (hsignature : s.encoding.signature = s'.encoding.signature) (p : Bool) (x : SExpr α) :
    Matches Alike s.encoding s'.encoding
      ((Journal.condition p x s).1, (Journal.condition p x s).2.encoding)
      ((Journal.condition p x s').1, (Journal.condition p x s').2.encoding) := by
  rw [(hs.condition p x).same, (hs'.condition p x).same]
  exact Twins.condition ⟨hs.wf, hs'.wf, hs.reduced, hs'.reduced, hsignature⟩ p x

/-- Converted once more, a condition is what it was converted into before. -/
theorem Sound.condition_again {s s' : Journal} (hs : s.Sound) (p : Bool) (x : SExpr α)
    (h : Steps α (Journal.condition p x s).2 s')
    (hsignature : s.encoding.signature = s'.encoding.signature) :
    (Journal.condition p x s').1.toOption = (Journal.condition p x s).1.toOption := by
  have hx := hs.condition p x
  obtain ⟨hs', hle⟩ := h.sound hx.sound
  have hself := hs.condition_matches hs rfl p x
  have hagain := hs.condition_matches hs' hsignature p x
  generalize Journal.condition p x s = r at hx hle hself hagain
  generalize Journal.condition p x s' = r' at hagain
  obtain ⟨r, s₁⟩ := r
  obtain ⟨r', s₂⟩ := r'
  obtain ⟨htwins, -, hle', hboth⟩ := hagain
  cases hboth with
  | error => rfl
  | ok hll =>
    -- the expression of the first conversion is like itself, and like that of the second
    obtain ⟨hlself⟩ := hself.both
    have hkept := hlself.of_le hself.twins (le_refl _) (le_trans hle hle')
    exact congrArg some (htwins.comparable.right_eq hkept hll).symm

/-- Next forms and instances commute, and what becomes of a condition depends on the declarations
only. -/
theorem Steps.next_commutes {s : Journal} (h : Steps α start s) :
    (∀ l ∈ s.encoding.graph,
      ((shift l s).1, (shift l s).2.encoding) = Encoding.shift l s.encoding ∧
      (s.encoding.isStateExpr l → ∃ m, (shift l s).1 = .ok m ∧
        ∀ (time : UInt64) (s₁ s₂ : Journal), Steps α (shift l s).2 s₁ → Steps α start s₂ →
          l ∈ s₂.encoding.graph →
          Steps α (instantiate m time s₁).2 s₂ ∨ Steps α (instantiate l (time + 1) s₂).2 s₁ →
          (instantiate m time s₁).1 = (instantiate l (time + 1) s₂).1)) ∧
    ∀ (p : Bool) (x : SExpr α),
      ((condition p x s).1, (condition p x s).2.encoding) =
        (Encoding.condition p x).run s.encoding ∧
      ∀ s' : Journal, Steps α start s' → s.encoding.signature = s'.encoding.signature →
        Both ((condition p x s).2.encoding.Alike (condition p x s').2.encoding)
          (condition p x s).1 (condition p x s').1 ∧
        (Steps α (condition p x s).2 s' →
          (condition p x s').1.toOption = (condition p x s).1.toOption) := by
  obtain ⟨hs, -⟩ := h.sound sound_start
  refine ⟨fun l hl => ⟨(hs.shift hl).same, fun hstate => ?_⟩, fun p x =>
    ⟨(hs.condition p x).same, fun s' h' hsignature => ?_⟩⟩
  · obtain ⟨m, hm⟩ := Encoding.exists_shift hs.wf hstate
    rw [← (hs.shift hl).same] at hm
    refine ⟨m, hm, fun time s₁ s₂ h₁ h₂ hl₂ hline => ?_⟩
    exact hs.shift_instantiate hl hm time h₁ (h₂.sound sound_start).1 hl₂ hline
  · obtain ⟨hs', -⟩ := h'.sound sound_start
    exact ⟨(hs.condition_matches hs' hsignature p x).both, fun hafter =>
      hs.condition_again p x hafter hsignature⟩

/-- A state variable that is shifted after the next form of an input was asked for in vain. -/
theorem Steps.next_commutes_input :
    ∃ s₀ : Journal, Steps Unit start s₀ ∧
      let x : SExpr Unit := .list () [.symbol () "next", .symbol () "i"]
      let s := (condition true x s₀).2
      (condition true x s₀).1.toOption = none ∧ (condition true x s).1.toOption = none ∧
      ∃ m, (shift (.pos 2) s).1 = .ok m ∧
        (instantiate m 2 (shift (.pos 2) s).2).1 =
          (instantiate (.pos 2) 3 (instantiate m 2 (shift (.pos 2) s).2).2).1 := by
  have hdeclared : Steps Unit start (run (.declare (α := Unit) true "i")
      (run (.declare (α := Unit) false "p") start)) :=
    (Relation.ReflTransGen.single (.call (.declare false "p") nofun)).tail
      (.call (.declare true "i") nofun)
  generalize hs₀ : run (.declare (α := Unit) true "i")
    (run (.declare (α := Unit) false "p") start) = s₀ at hdeclared
  have hstate : s₀.encoding.vars[0]? = some ⟨"p", 0, .pos 2, .state (.pos 3)⟩ := hs₀ ▸ rfl
  have hinput : s₀.encoding.vars[1]? = some ⟨"i", 1, .pos 4, .input⟩ := hs₀ ▸ rfl
  have hname : s₀.encoding.conditionName? "i" = some (.pos 4) := hs₀ ▸ rfl
  obtain ⟨hsound, -⟩ := hdeclared.sound sound_start
  refine ⟨s₀, hdeclared, ?_⟩
  intro x s
  -- the input has no next form, so that its condition fails and what was remembered is given up
  have hx := hsound.condition true x
  have h : Steps Unit start s := hdeclared.tail (.call (.convert true x) nofun)
  have hvars : s.encoding.vars = s₀.encoding.vars := by
    have hplain := (condition_attempts hsound.wf true x).1.vars
    rw [← hx.same] at hplain
    exact hplain
  have hfails : (condition true x s₀).1.toOption = none := by
    obtain ⟨err, herr⟩ := exists_shift_error_of_isInput hsound.wf hinput rfl
    have hplain := congrArg Prod.fst hx.same
    rw [condition_list_eq, conditions_cons_eq, condition_symbol_eq, hname] at hplain
    rw [Encoding.conditions] at hplain
    change _ = Except.mapError _
      ((Encoding.connect .next true [.pos 4]).run s₀.encoding).1 at hplain
    rw [hplain, connect_next_run, herr]
    rfl
  have hstate' : s.encoding.vars[0]? = some ⟨"p", 0, .pos 2, .state (.pos 3)⟩ := hvars ▸ hstate
  have hmem := hx.sound.wf.pos_mem ((hx.sound.wf.current 0 2).2 ⟨_, hstate', rfl⟩)
  obtain ⟨-, hagain⟩ := (Steps.next_commutes hdeclared).2 true x
  obtain ⟨-, hcommutes⟩ := (Steps.next_commutes h).1 (.pos 2) hmem
  obtain ⟨m, hm, hinstances⟩ := hcommutes
    (isStateExpr_current hx.sound.wf (hx.sound.wf.mem_stateVariables hstate' rfl).1)
  refine ⟨hfails, ?_, m, hm, ?_⟩
  · rw [← hfails]
    exact (hagain s h (by rw [Encoding.signature, Encoding.signature, hvars])).2 .refl
  · have hshift := hx.sound.shift hmem
    have hmem₁ := Graph.mem_of_le (graph_le hshift.grows) hmem
    have hm₁ := (hx.sound.shift_imageOf hmem hm hshift.sound.wf (le_refl _)).2.mem leafNext_settles
      hshift.sound.wf hmem₁
    have hthen : Steps Unit start (instantiate m 2 (shift (.pos 2) s).2).2 :=
      (h.tail (.shift (.pos 2) hmem)).tail (.call (.instantiate m 2) fun l hl => by
        rwa [List.mem_singleton.1 hl])
    exact hinstances 2 _ _ .refl hthen
      (Graph.mem_of_le (graph_le (hshift.sound.instantiate hm₁ 2).grows) hmem₁) (.inl .refl)

end

end Journal

end Lasso
