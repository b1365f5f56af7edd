import Mathlib.Tactic.Common
import Mathlib.Data.List.Perm.Basic
import Lasso.SExpr.Token

/-! # What stands in a text

A token stands in a text where its characters do, outside of comments, and a word only where it
cannot be extended.  The scanner finds these tokens and no others, in the order of the text, which
determines what it returns.
-/

namespace Lasso

set_option autoImplicit false

namespace Token

/-- What follows these characters is part of a comment. -/
def InComment (cs : List Char) : Prop := ∃ w v, cs = w ++ ';' :: v ∧ '\n' ∉ v

theorem not_inComment_nil : ¬ InComment [] := by
  rintro ⟨w, v, h, -⟩
  simp at h

theorem inComment_singleton_iff {c : Char} : InComment [c] ↔ c = ';' := by
  constructor
  · rintro ⟨w, v, h, -⟩
    cases w with
    | nil => exact (List.cons.inj h).1
    | cons d w => simp at h
  · rintro rfl
    exact ⟨[], [], rfl, List.not_mem_nil⟩

theorem inComment_append_iff {u v : List Char} :
    InComment (u ++ v) ↔ InComment v ∨ InComment u ∧ '\n' ∉ v := by
  constructor
  · rintro ⟨a, b, h, hb⟩
    obtain ⟨m, rfl, hv⟩ | ⟨m, rfl, hv⟩ := List.append_eq_append_iff.1 h
    · exact .inl ⟨m, b, hv, hb⟩
    · cases m with
      | nil => exact .inl ⟨[], b, hv.symm, hb⟩
      | cons c m =>
        simp only [List.cons_append, List.cons.injEq] at hv
        obtain ⟨rfl, rfl⟩ := hv
        simp only [List.mem_append, not_or] at hb
        exact .inr ⟨⟨a, m, rfl, hb.1⟩, hb.2⟩
  · rintro (⟨a, b, rfl, hb⟩ | ⟨⟨a, b, rfl, hb⟩, hv⟩)
    · exact ⟨u ++ a, b, by simp, hb⟩
    · exact ⟨a, b ++ v, by simp, by simp [hb, hv]⟩

theorem inComment_concat_iff {u : List Char} {c : Char} :
    InComment (u ++ [c]) ↔ c ≠ '\n' ∧ (c = ';' ∨ InComment u) := by
  rw [inComment_append_iff, inComment_singleton_iff, List.mem_singleton]
  constructor
  · rintro (rfl | ⟨h, hc⟩)
    · exact ⟨by decide, .inl rfl⟩
    · exact ⟨Ne.symm hc, .inr h⟩
  · rintro ⟨hc, rfl | h⟩
    · exact .inl rfl
    · exact .inr ⟨h, Ne.symm hc⟩

def EndsWord (cs : List Char) : Prop := ∃ c ∈ cs.getLast?, isWordChar c = true

def StartsWord (cs : List Char) : Prop := ∃ c ∈ cs.head?, isWordChar c = true

theorem not_startsWord_nil : ¬ StartsWord [] := by simp [StartsWord]

@[simp] theorem startsWord_cons_iff {c : Char} {cs : List Char} :
    StartsWord (c :: cs) ↔ isWordChar c = true := by simp [StartsWord]

@[simp] theorem endsWord_concat_iff {c : Char} {cs : List Char} :
    EndsWord (cs ++ [c]) ↔ isWordChar c = true := by simp [EndsWord]

theorem not_endsWord_nil : ¬ EndsWord [] := by simp [EndsWord]

theorem startsWord_append_iff {u : List Char} (hne : u ≠ []) (v : List Char) :
    StartsWord (u ++ v) ↔ StartsWord u := by
  cases u with
  | nil => exact absurd rfl hne
  | cons c u => simp

theorem endsWord_append_iff {v : List Char} (hne : v ≠ []) (u : List Char) :
    EndsWord (u ++ v) ↔ EndsWord v := by
  obtain ⟨v, c, rfl⟩ := (List.eq_nil_or_concat v).resolve_left hne
  rw [List.concat_eq_append, ← List.append_assoc, endsWord_concat_iff, endsWord_concat_iff]

theorem startsWord_append {u : List Char} (hne : u ≠ []) (hu : ∀ c ∈ u, isWordChar c = true)
    (v : List Char) : StartsWord (u ++ v) := by
  rw [startsWord_append_iff hne]
  exact ⟨u.head hne, List.head?_eq_some_head hne, hu _ (List.head_mem hne)⟩

theorem endsWord_append {v : List Char} (hne : v ≠ []) (hv : ∀ c ∈ v, isWordChar c = true)
    (u : List Char) : EndsWord (u ++ v) := by
  rw [endsWord_append_iff hne]
  exact ⟨v.getLast hne, List.getLast?_eq_some_getLast hne, hv _ (List.getLast_mem hne)⟩

theorem not_inComment_letters {u : List Char} (hu : ∀ c ∈ u, isWordChar c = true) :
    ¬ InComment u := by
  rintro ⟨w, v, rfl, -⟩
  exact absurd (hu ';' (by simp)) (by decide)

theorem not_inComment_append {u v : List Char} (hu : ¬ InComment u) (hv : ¬ InComment v) :
    ¬ InComment (u ++ v) := by
  rw [inComment_append_iff]
  rintro (h | ⟨h, -⟩)
  · exact hv h
  · exact hu h

theorem letters_unique {u u' v v' : List Char} (h : u ++ v = u' ++ v')
    (hu : ∀ c ∈ u, isWordChar c = true) (hu' : ∀ c ∈ u', isWordChar c = true)
    (hv : ¬ StartsWord v) (hv' : ¬ StartsWord v') : u = u' := by
  obtain ⟨m, rfl, rfl⟩ | ⟨m, rfl, rfl⟩ := List.append_eq_append_iff.1 h
  · by_contra hne
    refine hv (startsWord_append (u := m) ?_ (fun c hc => hu' c (by simp [hc])) v')
    rintro rfl
    simp at hne
  · by_contra hne
    refine hv' (startsWord_append (u := m) ?_ (fun c hc => hu c (by simp [hc])) v)
    rintro rfl
    simp at hne

def lexeme : Token → List Char
  | .opening _ => ['(']
  | .closing _ => [')']
  | .word _ letters => letters

/-- A word has letters, and neither what is before nor what is after it extends it. -/
def Whole (before after : List Char) : Token → Prop
  | .word _ letters =>
    letters ≠ [] ∧ (∀ c ∈ letters, isWordChar c = true) ∧ ¬ EndsWord before ∧ ¬ StartsWord after
  | _ => True

/-- A token stands in a text. -/
def Stands (cs : List Char) (t : Token) : Prop :=
  ∃ w v, cs = w ++ (t.lexeme ++ v) ∧ w.length = t.start ∧ ¬ InComment w ∧ t.Whole w v

theorem stop_eq (t : Token) : t.stop = t.start + t.lexeme.length := by
  cases t <;> rfl

theorem Whole.lexeme_ne_nil {w v : List Char} {t : Token} (h : t.Whole w v) : t.lexeme ≠ [] := by
  cases t with
  | word p letters => exact h.1
  | _ => simp [lexeme]

theorem Stands.start_lt_stop {cs : List Char} {t : Token} (h : Stands cs t) : t.start < t.stop := by
  obtain ⟨w, v, -, -, -, hwhole⟩ := h
  have := List.length_pos_iff.2 hwhole.lexeme_ne_nil
  rw [stop_eq]
  omega

theorem Stands.stop_le {cs : List Char} {t : Token} (h : Stands cs t) : t.stop ≤ cs.length := by
  obtain ⟨w, v, rfl, hw, -, -⟩ := h
  rw [stop_eq, List.length_append, List.length_append]
  omega

/-- What a token that starts at a position says about the character there. -/
theorem Stands.at_start {u v : List Char} {c : Char} {t : Token} (h : Stands (u ++ c :: v) t)
    (hstart : t.start = u.length) :
    ¬ InComment u ∧ (t = .opening u.length ∧ c = '(' ∨ t = .closing u.length ∧ c = ')' ∨
      isWordChar c = true) := by
  obtain ⟨w, v', heq, hw, hcomment, hwhole⟩ := h
  obtain ⟨rfl, hrest⟩ := List.append_inj heq (by omega)
  refine ⟨hcomment, ?_⟩
  cases t with
  | opening p => exact .inl ⟨congrArg _ hstart, (List.cons.inj hrest).1⟩
  | closing p => exact .inr (.inl ⟨congrArg _ hstart, (List.cons.inj hrest).1⟩)
  | word p letters =>
    obtain ⟨d, letters, rfl⟩ := List.exists_cons_of_ne_nil hwhole.1
    rw [(List.cons.inj hrest).1]
    exact .inr (.inr (hwhole.2.1 d (by simp)))

/-- No token starts within a word but the word itself. -/
theorem Stands.of_word {w letters v : List Char} {t : Token} (h : Stands (w ++ (letters ++ v)) t)
    (hword : (Token.word w.length letters).Whole w v) (hstart : w.length ≤ t.start) :
    t = .word w.length letters ∨ (w ++ letters).length ≤ t.start := by
  obtain ⟨w', v', heq, hw', -, hwhole⟩ := h
  obtain ⟨-, hletters, -, hv⟩ := hword
  -- The token starts after a part `m` of the letters, and that part is empty.
  obtain ⟨m, rfl, hrest⟩ : ∃ m, w' = w ++ m ∧ letters ++ v = m ++ (t.lexeme ++ v') := by
    obtain ⟨m, rfl, hm⟩ | ⟨m, rfl, hm⟩ := List.append_eq_append_iff.1 heq
    · exact ⟨m, rfl, hm⟩
    · obtain rfl : m = [] := List.length_eq_zero_iff.1 (by simp at hstart; omega)
      exact ⟨[], by simp, by simpa using hm.symm⟩
  obtain ⟨a, rfl, -⟩ | ⟨a, rfl, ha⟩ := List.append_eq_append_iff.1 hrest
  · exact .inr (by simp [← hw'])
  by_cases hne : a = []
  · exact .inr (by simp [← hw', hne])
  have hstarts : StartsWord (t.lexeme ++ v') := by
    rw [ha]
    exact startsWord_append hne (fun c hc => hletters c (by simp [hc])) v
  left
  cases t with
  | opening p => exact absurd (startsWord_cons_iff.1 hstarts) (by decide)
  | closing p => exact absurd (startsWord_cons_iff.1 hstarts) (by decide)
  | word p letters' =>
    obtain ⟨-, hletters', hends, hv'⟩ := hwhole
    obtain rfl : m = [] := by
      by_contra hm
      exact hends (endsWord_append hm (fun c hc => hletters c (by simp [hc])) w)
    obtain rfl : letters' = a :=
      letters_unique ha hletters' (fun c hc => hletters c (by simpa using hc)) hv' hv
    simp only [List.append_nil, start] at hw'
    rw [hw', List.nil_append]

/-- What a mode knows about the characters read so far. -/
def Mode.Fits (u : List Char) : Mode → Prop
  | .between => ¬ InComment u ∧ ¬ EndsWord u
  | .comment => InComment u
  | .word p letters => ∃ w, u = w ++ letters.reverse ∧ w.length = p ∧ ¬ InComment w ∧
      letters ≠ [] ∧ (∀ c ∈ letters, isWordChar c = true) ∧ ¬ EndsWord w

/-- Where the tokens begin that are not yet found. -/
def Mode.start (position : Nat) : Mode → Nat
  | .word p _ => p
  | _ => position

@[simp] theorem Mode.start_between (position : Nat) : Mode.between.start position = position := rfl

@[simp] theorem Mode.start_comment (position : Nat) : Mode.comment.start position = position := rfl

theorem Mode.Fits.not_inComment {mode : Mode} {u : List Char} (h : mode.Fits u)
    (hmode : mode ≠ .comment) : ¬ InComment u := by
  cases mode with
  | between => exact h.1
  | comment => exact absurd rfl hmode
  | word p letters =>
    obtain ⟨w, rfl, -, hw, -, hletters, -⟩ := h
    exact not_inComment_append hw (not_inComment_letters (by simpa using hletters))

theorem Mode.Fits.letter {mode : Mode} {u : List Char} (h : mode.Fits u) (hmode : mode ≠ .comment)
    {c : Char} (hc : isWordChar c = true) : (mode.letter u.length c).Fits (u ++ [c]) := by
  cases mode with
  | between => exact ⟨u, rfl, rfl, h.1, by simp, by simpa using hc, h.2⟩
  | comment => exact absurd rfl hmode
  | word p letters =>
    obtain ⟨w, rfl, hp, hw, -, hletters, hends⟩ := h
    refine ⟨w, by simp, hp, hw, by simp, ?_, hends⟩
    intro d hd
    obtain rfl | hd := List.mem_cons.1 hd
    · exact hc
    · exact hletters d hd

theorem Mode.start_letter {mode : Mode} (p : Nat) (c : Char) (q : Nat) :
    (mode.letter p c).start q = mode.start p := by
  cases mode <;> rfl

theorem Mode.Fits.finish {mode : Mode} {u v : List Char} (h : mode.Fits u)
    (hv : ¬ StartsWord v) (t : Token) :
    t ∈ mode.finish ∨ Stands (u ++ v) t ∧ u.length ≤ t.start ↔
      Stands (u ++ v) t ∧ mode.start u.length ≤ t.start := by
  cases mode with
  | between => simp [Mode.finish, Mode.start]
  | comment => simp [Mode.finish, Mode.start]
  | word p letters =>
    obtain ⟨w, rfl, rfl, hw, hne, hletters, hends⟩ := h
    have hwhole : (Token.word w.length letters.reverse).Whole w v :=
      ⟨by simpa using hne, by simpa using hletters, hends, hv⟩
    simp only [Mode.finish, Mode.start, List.mem_singleton, List.append_assoc]
    constructor
    · rintro (rfl | ⟨ht, hstart⟩)
      · exact ⟨⟨w, v, rfl, rfl, hw, hwhole⟩, Nat.le_refl _⟩
      · exact ⟨ht, Nat.le_trans (by simp) hstart⟩
    · rintro ⟨ht, hstart⟩
      exact (ht.of_word hwhole hstart).imp_right fun hlt => ⟨ht, hlt⟩

theorem scan_cons {mode : Mode} (hmode : mode ≠ .comment) (p : Nat) (c : Char) (cs : List Char) :
    scan mode p (c :: cs) =
      if c = '(' then mode.finish ++ .opening p :: scan .between (p + 1) cs
      else if c = ')' then mode.finish ++ .closing p :: scan .between (p + 1) cs
      else if c = ';' then mode.finish ++ scan .comment (p + 1) cs
      else if Text.isBlank c then mode.finish ++ scan .between (p + 1) cs
      else scan (mode.letter p c) (p + 1) cs := by
  cases mode with
  | comment => exact absurd rfl hmode
  | _ => rfl

theorem isWordChar_eq_false_iff {c : Char} :
    isWordChar c = false ↔ c = '(' ∨ c = ')' ∨ c = ';' ∨ Text.isBlank c = true := by
  simp only [isWordChar, Bool.and_eq_false_iff, Bool.not_eq_false', decide_eq_false_iff_not,
    not_not]
  tauto

theorem scan_letter {mode : Mode} (hmode : mode ≠ .comment) (p : Nat) {c : Char}
    (hc : isWordChar c = true) (cs : List Char) :
    scan mode p (c :: cs) = scan (mode.letter p c) (p + 1) cs := by
  simp only [isWordChar, Bool.and_eq_true, decide_eq_true_eq, Bool.not_eq_true'] at hc
  simp [scan_cons hmode, hc]

theorem Mode.Fits.between {mode : Mode} {u : List Char} (h : mode.Fits u)
    (hmode : mode ≠ .comment) {c : Char} (hc : isWordChar c = false) (hne : c ≠ ';') :
    Mode.between.Fits (u ++ [c]) := by
  constructor
  · simp [inComment_concat_iff, hne, h.not_inComment hmode]
  · simp [hc]

theorem stands_from_iff {u v : List Char} {c : Char} {t : Token}
    (hc : isWordChar c = false ∨ InComment u) :
    Stands (u ++ c :: v) t ∧ u.length ≤ t.start ↔
      (¬ InComment u ∧ (c = '(' ∧ t = .opening u.length ∨ c = ')' ∧ t = .closing u.length)) ∨
        Stands (u ++ c :: v) t ∧ u.length + 1 ≤ t.start := by
  constructor
  · rintro ⟨ht, hstart⟩
    obtain hlt | heq := Nat.lt_or_eq_of_le hstart
    · exact .inr ⟨ht, hlt⟩
    · obtain ⟨hu, ⟨rfl, rfl⟩ | ⟨rfl, rfl⟩ | hletter⟩ := ht.at_start heq.symm
      · exact .inl ⟨hu, .inl ⟨rfl, rfl⟩⟩
      · exact .inl ⟨hu, .inr ⟨rfl, rfl⟩⟩
      · obtain hc | hc := hc
        · rw [hc] at hletter
          cases hletter
        · exact absurd hc hu
  · rintro (⟨hu, ⟨rfl, rfl⟩ | ⟨rfl, rfl⟩⟩ | ⟨ht, hstart⟩)
    · exact ⟨⟨u, v, rfl, rfl, hu, trivial⟩, Nat.le_refl _⟩
    · exact ⟨⟨u, v, rfl, rfl, hu, trivial⟩, Nat.le_refl _⟩
    · exact ⟨ht, Nat.le_of_succ_le hstart⟩

theorem Mode.Fits.stop_le {mode : Mode} {u : List Char} (h : mode.Fits u) {t : Token}
    (ht : t ∈ mode.finish) : t.stop ≤ u.length := by
  cases mode with
  | word p letters =>
    obtain ⟨w, rfl, rfl, -⟩ := h
    obtain rfl := List.mem_singleton.1 ht
    simp [stop]
  | _ => cases ht

theorem Mode.pairwise_finish (mode : Mode) :
    mode.finish.Pairwise fun a b => a.stop ≤ b.start := by
  cases mode <;> simp [Mode.finish]

/-- What the scanner does at one character: the tokens it finds there, and the mode after it. -/
structure Mode.Step (mode : Mode) (u : List Char) (c : Char) (found : List Token)
    (mode' : Mode) : Prop where
  fits : mode'.Fits (u ++ [c])
  ordered : found.Pairwise fun a b => a.stop ≤ b.start
  stop_le : ∀ t ∈ found, t.stop ≤ mode'.start (u.length + 1)
  scan_eq : ∀ v, scan mode u.length (c :: v) = found ++ scan mode' (u.length + 1) v
  mem_iff : ∀ v t, t ∈ found ∨ Stands (u ++ c :: v) t ∧ mode'.start (u.length + 1) ≤ t.start ↔
    Stands (u ++ c :: v) t ∧ mode.start u.length ≤ t.start

theorem Mode.Fits.step_parenthesis {mode : Mode} {u : List Char} (h : mode.Fits u)
    (hmode : mode ≠ .comment) {c : Char} (paren : Token) (hstart : paren.start = u.length)
    (hstop : paren.stop = u.length + 1)
    (hc : c = '(' ∧ paren = .opening u.length ∨ c = ')' ∧ paren = .closing u.length) :
    mode.Step u c (mode.finish ++ [paren]) .between := by
  have hword : isWordChar c = false := by obtain ⟨rfl, -⟩ | ⟨rfl, -⟩ := hc <;> decide
  have hne : c ≠ ';' := by obtain ⟨rfl, -⟩ | ⟨rfl, -⟩ := hc <;> decide
  constructor
  · exact h.between hmode hword hne
  · rw [List.pairwise_append]
    refine ⟨mode.pairwise_finish, List.pairwise_singleton _ _, fun a ha b hb => ?_⟩
    rw [List.mem_singleton.1 hb, hstart]
    exact h.stop_le ha
  · intro t ht
    obtain ht | ht := List.mem_append.1 ht
    · exact Nat.le_succ_of_le (h.stop_le ht)
    · exact Nat.le_of_eq (List.mem_singleton.1 ht ▸ hstop)
  · intro v
    rw [scan_cons hmode]
    obtain ⟨rfl, rfl⟩ | ⟨rfl, rfl⟩ := hc <;> simp
  · intro v t
    rw [← h.finish (by simp [hword]) t, stands_from_iff (.inl hword)]
    have hu := h.not_inComment hmode
    obtain ⟨rfl, rfl⟩ | ⟨rfl, rfl⟩ := hc <;> simp [hu, or_assoc]

theorem Mode.Fits.step_gap {mode : Mode} {u : List Char} (h : mode.Fits u)
    (hmode : mode ≠ .comment) {c : Char} (hc : isWordChar c = false) (hparen : c ≠ '(' ∧ c ≠ ')') :
    mode.Step u c mode.finish (if c = ';' then .comment else .between) := by
  have hstart : (if c = ';' then Mode.comment else .between).start (u.length + 1) =
      u.length + 1 := by
    split <;> rfl
  constructor
  · split
    · rename_i heq
      exact inComment_concat_iff.2 ⟨by simp [heq], .inl heq⟩
    · rename_i hne
      exact h.between hmode hc hne
  · exact mode.pairwise_finish
  · intro t ht
    rw [hstart]
    exact Nat.le_succ_of_le (h.stop_le ht)
  · intro v
    rw [scan_cons hmode, if_neg hparen.1, if_neg hparen.2]
    split
    · rfl
    · rename_i hne
      rw [if_pos (by simpa [hparen, hne] using isWordChar_eq_false_iff.1 hc)]
  · intro v t
    rw [hstart, ← h.finish (by simp [hc]) t, stands_from_iff (.inl hc)]
    simp [hparen]

theorem Mode.Fits.exists_step {mode : Mode} {u : List Char} (h : mode.Fits u) (c : Char) :
    ∃ found mode', mode.Step u c found mode' := by
  by_cases hmode : mode = .comment
  · subst hmode
    have hstart : (if c = '\n' then Mode.between else .comment).start (u.length + 1) =
        u.length + 1 := by split <;> rfl
    refine ⟨[], if c = '\n' then .between else .comment, ?_, .nil, by simp, fun v => by simp [scan],
      fun v t => ?_⟩
    · split
      · rename_i hc
        subst hc
        exact ⟨by simp [inComment_concat_iff], by simp; decide⟩
      · rename_i hc
        exact inComment_concat_iff.2 ⟨hc, .inr h⟩
    · rw [hstart, Mode.start_comment, stands_from_iff (.inr h)]
      simp [show InComment u from h]
  by_cases hc : isWordChar c = true
  · refine ⟨[], mode.letter u.length c, h.letter hmode hc, .nil, by simp,
      fun v => scan_letter hmode u.length hc v, fun v t => ?_⟩
    simp [Mode.start_letter]
  rw [Bool.not_eq_true] at hc
  by_cases hopen : c = '('
  · exact ⟨_, _, h.step_parenthesis hmode (.opening u.length) rfl rfl (.inl ⟨hopen, rfl⟩)⟩
  by_cases hclose : c = ')'
  · exact ⟨_, _, h.step_parenthesis hmode (.closing u.length) rfl rfl (.inr ⟨hclose, rfl⟩)⟩
  exact ⟨_, _, h.step_gap hmode hc ⟨hopen, hclose⟩⟩

/-- The tokens that the scanner finds are those that stand in the text. -/
theorem mem_scan_iff {mode : Mode} {u : List Char} (h : mode.Fits u) (v : List Char) (t : Token) :
    t ∈ scan mode u.length v ↔ Stands (u ++ v) t ∧ mode.start u.length ≤ t.start := by
  induction v generalizing mode u with
  | nil =>
    have hend : ¬ (Stands (u ++ []) t ∧ u.length ≤ t.start) := by
      rintro ⟨ht, hstart⟩
      have hlt := ht.start_lt_stop
      have hle := ht.stop_le
      rw [List.append_nil] at hle
      omega
    rw [← h.finish not_startsWord_nil t, or_iff_left hend]
    cases mode <;> rfl
  | cons c v ih =>
    obtain ⟨found, mode', hstep⟩ := h.exists_step c
    have hrest := ih hstep.fits
    simp only [List.length_append, List.length_singleton, List.append_assoc,
      List.singleton_append] at hrest
    rw [hstep.scan_eq, List.mem_append, hrest, hstep.mem_iff]

theorem pairwise_scan {mode : Mode} {u : List Char} (h : mode.Fits u) (v : List Char) :
    (scan mode u.length v).Pairwise fun a b => a.stop ≤ b.start := by
  induction v generalizing mode u with
  | nil => cases mode <;> exact Mode.pairwise_finish _
  | cons c v ih =>
    obtain ⟨found, mode', hstep⟩ := h.exists_step c
    have hlength : (u ++ [c]).length = u.length + 1 := by simp
    rw [hstep.scan_eq, List.pairwise_append, ← hlength]
    refine ⟨hstep.ordered, ih hstep.fits, fun a ha b hb => ?_⟩
    have hb' := ((mem_scan_iff hstep.fits v b).1 hb).2
    rw [hlength] at hb'
    exact Nat.le_trans (hstep.stop_le a ha) hb'

theorem fits_start : Mode.between.Fits [] := ⟨not_inComment_nil, not_endsWord_nil⟩

theorem mem_ofText_iff {cs : List Char} {t : Token} : t ∈ ofText cs ↔ Stands cs t := by
  have h := mem_scan_iff fits_start cs t
  simpa [ofText] using h

theorem pairwise_ofText (cs : List Char) : (ofText cs).Pairwise fun a b => a.stop ≤ b.start :=
  pairwise_scan fits_start cs

/-- The tokens that stand in a text, from left to right. -/
structure Divides (cs : List Char) (ts : List Token) : Prop where
  ordered : ts.Pairwise fun a b => a.stop ≤ b.start
  mem_iff : ∀ t, t ∈ ts ↔ Stands cs t

theorem Divides.pairwise_lt {cs : List Char} {ts : List Token} (h : Divides cs ts) :
    ts.Pairwise fun a b => a.start < b.start := by
  refine h.ordered.imp_of_mem fun {a b} ha _ hab => ?_
  have := ((h.mem_iff a).1 ha).start_lt_stop
  omega

/-- Tokens from left to right are determined by which ones there are. -/
theorem eq_of_mem_iff {ts us : List Token} (hts : ts.Pairwise fun a b => a.start < b.start)
    (hus : us.Pairwise fun a b => a.start < b.start) (h : ∀ t, t ∈ ts ↔ t ∈ us) : ts = us := by
  have hnodup : ∀ {xs : List Token}, xs.Pairwise (fun a b => a.start < b.start) → xs.Nodup := by
    intro xs hxs
    refine hxs.imp ?_
    rintro a b hab rfl
    exact Nat.lt_irrefl _ hab
  have hperm : ts.Perm us := (List.perm_ext_iff_of_nodup (hnodup hts) (hnodup hus)).2 h
  exact hperm.eq_of_pairwise (fun a b _ _ hab hba => absurd hab (Nat.lt_asymm hba)) hts hus

/-- A text divides into tokens in one way only. -/
theorem Divides.unique {cs : List Char} {ts us : List Token} (hts : Divides cs ts)
    (hus : Divides cs us) : ts = us :=
  eq_of_mem_iff hts.pairwise_lt hus.pairwise_lt fun t => (hts.mem_iff t).trans (hus.mem_iff t).symm

theorem divides_ofText (cs : List Char) : Divides cs (ofText cs) :=
  ⟨pairwise_ofText cs, fun _ => mem_ofText_iff⟩

theorem divides_iff {cs : List Char} {ts : List Token} : Divides cs ts ↔ ts = ofText cs := by
  constructor
  · intro h
    exact h.unique (divides_ofText cs)
  · rintro rfl
    exact divides_ofText cs

end Token

end Lasso
