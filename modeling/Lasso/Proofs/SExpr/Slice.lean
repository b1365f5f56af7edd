import Lasso.Proofs.SExpr.Printing

/-! # Parts of a text

The part of a text that a term covers has the tokens of the term and no others, since a comment or
a word never reaches from outside into it.  So it reads as the same tree.
-/

namespace Lasso

set_option autoImplicit false

/-- The part of a text that a span covers. -/
def Span.slice (span : Span) (cs : List Char) : List Char :=
  (cs.take span.stop.toNat).drop span.start.toNat

theorem Span.exists_split {p q : Nat} {cs : List Char} (hpq : p ≤ q) (hq : q ≤ cs.length) :
    ∃ a b, cs = a ++ (Span.slice ⟨p, q⟩ cs ++ b) ∧ a.length = p ∧
      (Span.slice ⟨p, q⟩ cs).length = q - p := by
  refine ⟨cs.take p, cs.drop q, ?_, by simp; omega, by simp [slice]; omega⟩
  have htake : cs.take p = (cs.take q).take p := by rw [List.take_take, Nat.min_eq_left hpq]
  simp only [slice, Int.toNat_natCast]
  rw [← List.append_assoc, htake, List.take_append_drop, List.take_append_drop]

namespace Token

/-- A token further to the right. -/
def shift (n : Nat) : Token → Token
  | .opening p => .opening (n + p)
  | .closing p => .closing (n + p)
  | .word p letters => .word (n + p) letters

@[simp] theorem start_shift (n : Nat) (t : Token) : (t.shift n).start = n + t.start := by
  cases t <;> rfl

@[simp] theorem lexeme_shift (n : Nat) (t : Token) : (t.shift n).lexeme = t.lexeme := by
  cases t <;> rfl

@[simp] theorem unplaced_shift (n : Nat) (t : Token) : (t.shift n).unplaced = t.unplaced := by
  cases t <;> rfl

@[simp] theorem stop_shift (n : Nat) (t : Token) : (t.shift n).stop = n + t.stop := by
  simp [stop_eq, Nat.add_assoc]

theorem whole_shift_iff {n : Nat} {t : Token} {w v : List Char} :
    (t.shift n).Whole w v ↔ t.Whole w v := by
  cases t <;> rfl

theorem exists_shift {n : Nat} {t : Token} (h : n ≤ t.start) : ∃ u : Token, t = u.shift n := by
  cases t with
  | opening p => exact ⟨.opening (p - n), by simp [shift, start] at h ⊢; omega⟩
  | closing p => exact ⟨.closing (p - n), by simp [shift, start] at h ⊢; omega⟩
  | word p letters => exact ⟨.word (p - n) letters, by simp [shift, start] at h ⊢; omega⟩

/-- A text can be cut in two without cutting a word. -/
def Cuts (u v : List Char) : Prop := ¬ (EndsWord u ∧ StartsWord v)

theorem Stands.at_left {a m : List Char} {t : Token} (h : Stands (a ++ m) t)
    (hstart : t.start = a.length) : ¬ InComment a ∧ Cuts a m := by
  obtain ⟨w, v, heq, hw, hcomment, hwhole⟩ := h
  obtain ⟨rfl, rfl⟩ := List.append_inj heq (by omega)
  refine ⟨hcomment, ?_⟩
  rintro ⟨hends, hstarts⟩
  cases t with
  | opening p => exact absurd (startsWord_cons_iff.1 hstarts) (by decide)
  | closing p => exact absurd (startsWord_cons_iff.1 hstarts) (by decide)
  | word p letters => exact hwhole.2.2.1 hends

theorem Stands.at_right {m b : List Char} {t : Token} (h : Stands (m ++ b) t)
    (hstop : t.stop = m.length) : Cuts m b := by
  obtain ⟨w, v, heq, hw, -, hwhole⟩ := h
  rw [← List.append_assoc] at heq
  obtain ⟨rfl, rfl⟩ := List.append_inj heq (by rw [← hstop, stop_eq]; simp [hw])
  rintro ⟨hends, hstarts⟩
  cases t with
  | opening p => exact absurd (endsWord_concat_iff.1 hends) (by decide)
  | closing p => exact absurd (endsWord_concat_iff.1 hends) (by decide)
  | word p letters => exact hwhole.2.2.2 hstarts

/-- Between two cuts a token is whole in the part exactly if it is whole in the text. -/
theorem whole_append_iff {a w v b : List Char} {t : Token} (ha : Cuts a (w ++ (t.lexeme ++ v)))
    (hb : Cuts (w ++ (t.lexeme ++ v)) b) : t.Whole (a ++ w) (v ++ b) ↔ t.Whole w v := by
  cases t with
  | opening p => exact Iff.rfl
  | closing p => exact Iff.rfl
  | word p letters =>
    refine and_congr_right fun hne => and_congr_right fun hletters => ?_
    have hleft : EndsWord (a ++ w) ↔ EndsWord w := by
      cases hw : w with
      | nil =>
        rw [hw, List.nil_append] at ha
        simp only [List.append_nil, not_endsWord_nil, iff_false]
        exact fun hends => ha ⟨hends, startsWord_append hne hletters v⟩
      | cons c w => exact endsWord_append_iff (by simp) a
    have hright : StartsWord (v ++ b) ↔ StartsWord v := by
      cases hv : v with
      | nil =>
        rw [hv, List.append_nil] at hb
        simp only [List.nil_append, not_startsWord_nil, iff_false]
        exact fun hstarts => hb ⟨endsWord_append hne hletters w, hstarts⟩
      | cons c v => exact startsWord_append_iff (by simp) b
    rw [hleft, hright]

/-- The tokens of a part between two cuts are those of the text that lie in it. -/
theorem stands_slice_iff {a m b : List Char} (hcomment : ¬ InComment a) (ha : Cuts a m)
    (hb : Cuts m b) {t : Token} :
    Stands m t ↔ Stands (a ++ (m ++ b)) (t.shift a.length) ∧ t.stop ≤ m.length := by
  constructor
  · intro h
    refine ⟨?_, h.stop_le⟩
    obtain ⟨w, v, rfl, hw, hw', hwhole⟩ := h
    refine ⟨a ++ w, v ++ b, by simp, by simp [hw], not_inComment_append hcomment hw', ?_⟩
    rw [whole_shift_iff, whole_append_iff ha hb]
    exact hwhole
  · rintro ⟨⟨w', v', heq, hlength, hw', hwhole⟩, hstop⟩
    rw [lexeme_shift] at heq
    rw [start_shift] at hlength
    obtain ⟨w, rfl⟩ : a <+: w' :=
      List.prefix_of_prefix_length_le (List.prefix_append a (m ++ b)) ⟨_, heq.symm⟩ (by omega)
    rw [List.length_append, Nat.add_left_cancel_iff] at hlength
    rw [List.append_assoc, List.append_cancel_left_eq] at heq
    have hstart : w ++ t.lexeme <+: m ++ b := ⟨v', by rw [heq, List.append_assoc]⟩
    obtain ⟨v, rfl⟩ : w ++ t.lexeme <+: m := by
      refine List.prefix_of_prefix_length_le hstart (List.prefix_append m b) ?_
      rw [List.length_append, hlength, ← stop_eq]
      exact hstop
    simp only [List.append_assoc, List.append_cancel_left_eq] at heq
    subst heq
    rw [whole_shift_iff] at hwhole
    rw [List.append_assoc] at ha hb ⊢
    refine ⟨w, v, rfl, hlength, fun h => hw' (inComment_append_iff.2 (.inl h)), ?_⟩
    rwa [whole_append_iff ha hb] at hwhole

theorem between_ends {ts : List Token} {first last : Token} (hfirst : ts.head? = some first)
    (hlast : ts.getLast? = some last) (hlt : ∀ t ∈ ts, t.start < t.stop)
    (hts : ts.Pairwise fun a b => a.stop ≤ b.start) {t : Token} (ht : t ∈ ts) :
    first.start ≤ t.start ∧ t.stop ≤ last.stop := by
  constructor
  · obtain ⟨rest, rfl⟩ := List.head?_eq_some_iff.1 hfirst
    obtain rfl | hrest := List.mem_cons.1 ht
    · exact Nat.le_refl _
    · have hle := List.rel_of_pairwise_cons hts hrest
      have := hlt first (by simp)
      omega
  · obtain ⟨front, rfl⟩ := List.getLast?_eq_some_iff.1 hlast
    obtain hfront | hend := List.mem_append.1 ht
    · have hle := (List.pairwise_append.1 hts).2.2 t hfront last (by simp)
      have := hlt last (by simp)
      omega
    · exact Nat.le_of_eq (congrArg stop (List.mem_singleton.1 hend))

theorem shift_ofText_slice {cs : List Char} {ts : List Token} (hts : ts <:+: ofText cs)
    {first last : Token} (hfirst : ts.head? = some first) (hlast : ts.getLast? = some last) :
    (ofText (Span.slice ⟨first.start, last.stop⟩ cs)).map (shift first.start) = ts := by
  obtain ⟨pre, post, hcs⟩ := hts
  have hstands : ∀ t, t ∈ pre ∨ t ∈ ts ∨ t ∈ post ↔ Stands cs t := by
    intro t
    rw [← mem_ofText_iff, ← hcs]
    simp
  have hordered := pairwise_ofText cs
  rw [← hcs, List.append_assoc, List.pairwise_append] at hordered
  obtain ⟨-, hordered, hpre⟩ := hordered
  obtain ⟨hordered, -, hpost⟩ := List.pairwise_append.1 hordered
  have hbetween : ∀ t ∈ ts, first.start ≤ t.start ∧ t.stop ≤ last.stop := fun t =>
    between_ends hfirst hlast (fun u hu => ((hstands u).1 (.inr (.inl hu))).start_lt_stop) hordered
  have hmemFirst : first ∈ ts := List.mem_of_head? hfirst
  have hmemLast : last ∈ ts := List.mem_of_getLast? hlast
  have hstandsFirst := (hstands first).1 (.inr (.inl hmemFirst))
  have hstandsLast := (hstands last).1 (.inr (.inl hmemLast))
  have hlt : first.start < last.stop :=
    Nat.lt_of_lt_of_le hstandsFirst.start_lt_stop (hbetween first hmemFirst).2
  obtain ⟨a, b, hsplit, ha, hm⟩ := Span.exists_split (Nat.le_of_lt hlt) hstandsLast.stop_le
  generalize Span.slice ⟨first.start, last.stop⟩ cs = m at hsplit hm ⊢
  subst hsplit
  -- A token begins at the one end of the part and a token ends at the other.
  obtain ⟨hcomment, hcut⟩ := hstandsFirst.at_left ha.symm
  have hcutLeft : Cuts a m := by
    rwa [Cuts, startsWord_append_iff (by rintro rfl; simp at hm; omega)] at hcut
  have hcutRight : Cuts m b := by
    rw [← List.append_assoc] at hstandsLast
    have h := hstandsLast.at_right (by simp; omega)
    rwa [Cuts, endsWord_append_iff (by rintro rfl; simp at hm; omega)] at h
  have hslice : ∀ {t : Token}, Stands m t ↔
      Stands (a ++ (m ++ b)) (t.shift a.length) ∧ t.stop ≤ m.length :=
    stands_slice_iff hcomment hcutLeft hcutRight
  apply eq_of_mem_iff
  · rw [List.pairwise_map]
    simpa using (divides_ofText m).pairwise_lt
  · exact hordered.imp_of_mem fun {t u} ht _ htu =>
      Nat.lt_of_lt_of_le ((hstands t).1 (.inr (.inl ht))).start_lt_stop htu
  intro t
  rw [List.mem_map]
  constructor
  · rintro ⟨u, hu, rfl⟩
    rw [mem_ofText_iff, hslice, ha] at hu
    obtain ⟨hu, hstop⟩ := hu
    have hlt := hu.start_lt_stop
    rw [start_shift, stop_shift] at hlt
    obtain ht | ht | ht := (hstands _).2 hu
    · have hle := hpre _ ht first (by simp [hmemFirst])
      rw [stop_shift] at hle
      omega
    · exact ht
    · have hle := hpost last hmemLast _ ht
      rw [start_shift] at hle
      omega
  · intro ht
    obtain ⟨hstart, hstop⟩ := hbetween t ht
    obtain ⟨u, rfl⟩ := exists_shift hstart
    refine ⟨u, ?_, rfl⟩
    rw [stop_shift] at hstop
    rw [mem_ofText_iff, hslice, ha]
    exact ⟨(hstands _).1 (.inr (.inl ht)), by omega⟩

end Token

namespace SExpr

open Token

theorem Placed.exists_ends {t : SExpr Span} (h : t.Placed) : ∃ first last : Token,
    t.note = ⟨first.start, last.stop⟩ ∧ t.tokens.head? = some first ∧
      t.tokens.getLast? = some last := by
  cases t with
  | symbol span name =>
    obtain ⟨p, rfl⟩ := h
    exact ⟨.word p name.toList, .word p name.toList, by simp [note, start, stop], by simp [tokens],
      by simp [tokens]⟩
  | list span items =>
    obtain ⟨⟨p, q, rfl⟩, -⟩ := h
    exact ⟨.opening p, .closing q, by simp [note, start, stop], by simp [tokens],
      by simp [tokens, List.getLast?_cons]⟩

end SExpr

/-- The part of a text that a term of the text covers has that term as its only one. -/
theorem Source.exists_term_slice {cs : List Char} {t : SExpr Span} (hplaced : t.Placed)
    (ht : t.tokens <:+: Token.ofText cs) (name : String) :
    ∃ u, (Source.mk name (t.note.slice cs)).term = .ok u ∧ u.erase = t.erase := by
  obtain ⟨first, last, hnote, hfirst, hlast⟩ := hplaced.exists_ends
  apply Source.exists_term
  have hshift := congrArg (List.map Token.unplaced) (Token.shift_ofText_slice ht hfirst hlast)
  rw [List.map_map] at hshift
  have hcomp : Token.unplaced ∘ Token.shift first.start = Token.unplaced :=
    funext fun u => Token.unplaced_shift first.start u
  rw [hcomp, SExpr.unplaced_tokens] at hshift
  rw [hnote, SExpr.erase, SExpr.spelling_map]
  exact hshift

end Lasso
