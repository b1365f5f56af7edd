import Lasso.Proofs.Bounded.Witness

/-! # The walk along a path

The steps of a path are visited one after the other until one comes back.  Without a loop these are
all steps up to the bound; with a loop the last step before the bound leads back to it, so the step
at the bound is visited only if it is the loop itself.  Every step is looked up in range, and only
the last can have been visited before.
-/

namespace Lasso

set_option autoImplicit false

namespace Loop

/-- The rounds of a walk from a time on, with the times before it.  In every round the time is
looked up among those from zero to the bound; the walk ends at a time that was visited before or has
none after it. -/
inductive Rounds (bound : Int64) (l : Loop) : List Int64 → Int64 → List Int64 → Prop where
  | again {before : List Int64} {time : Int64} (hrange : 0 ≤ time ∧ time ≤ bound)
    (hseen : time ∈ before) : Rounds bound l before time [time]
  | last {before : List Int64} {time : Int64} (hrange : 0 ≤ time ∧ time ≤ bound)
    (hnew : time ∉ before) (hnext : successor? time bound l = .ok Option.none) :
    Rounds bound l before time [time]
  | step {before rest : List Int64} {time next : Int64} (hrange : 0 ≤ time ∧ time ≤ bound)
    (hnew : time ∉ before) (hnext : successor? time bound l = .ok (some next))
    (hrest : Rounds bound l (time :: before) next rest) : Rounds bound l before time (time :: rest)

/-- The first times of a path. -/
def firstTimes (count : Nat) : List Int64 := (List.range count).map Int64.ofNat

theorem firstTimes_succ (n : Nat) : firstTimes (n + 1) = firstTimes n ++ [.ofNat n] := by
  rw [firstTimes, List.range_succ, List.map_append]
  rfl

theorem mem_firstTimes_iff {n t : Nat} (hn : n < 2 ^ 63) (ht : t < 2 ^ 63) :
    .ofNat t ∈ firstTimes n ↔ t < n := by
  rw [firstTimes, List.mem_map]
  constructor
  · rintro ⟨u, hu, heq⟩
    have hun := List.mem_range.1 hu
    rwa [← (ofNat_inj (by omega) ht).1 heq]
  · intro htn
    exact ⟨t, List.mem_range.2 htn, rfl⟩

theorem nodup_firstTimes {n : Nat} (hn : n < 2 ^ 63) : (firstTimes n).Nodup := by
  induction n with
  | zero => exact List.nodup_nil
  | succ n ih =>
    rw [firstTimes_succ, List.nodup_append]
    refine ⟨ih (by omega), by simp, fun t ht u hu htu => ?_⟩
    rw [htu, List.mem_singleton.1 hu, mem_firstTimes_iff (by omega) (by omega)] at ht
    exact Nat.lt_irrefl n ht

section

variable {bound : Int64} {l : Loop} {before steps : List Int64} {time : Int64}

theorem Rounds.in_range (h : Rounds bound l before time steps) :
    ∀ t ∈ steps, 0 ≤ t ∧ t ≤ bound := by
  induction h with
  | again hrange _ | last hrange _ _ =>
    intro t ht
    exact List.mem_singleton.1 ht ▸ hrange
  | step hrange _ _ _ ih =>
    intro t ht
    rcases List.mem_cons.1 ht with rfl | ht
    · exact hrange
    · exact ih t ht

/-- However many more rounds are allowed, the walk lists the steps of its rounds. -/
theorem Rounds.walkFrom_eq (h : Rounds bound l before time steps) {visited : Std.HashSet Int64}
    (hvisited : ∀ t, visited.contains t = true ↔ t ∈ before) {count : Nat}
    (hcount : steps.length ≤ count + 1) :
    walkFrom bound l count visited before time = .ok (before.reverse ++ steps) := by
  induction h generalizing visited count with
  | again _ hseen =>
    rw [← List.reverse_cons]
    cases count with
    | zero => rfl
    | succ count =>
      rw [walkFrom, if_pos ((hvisited _).2 hseen)]
      rfl
  | last _ hnew hnext =>
    rw [← List.reverse_cons]
    cases count with
    | zero => rfl
    | succ count =>
      rw [walkFrom, if_neg (mt (hvisited _).1 hnew), hnext]
      rfl
  | @step before rest time next _ hnew hnext hrest ih =>
    cases count with
    | zero =>
      -- the rounds that follow list at least one more step
      cases hrest <;> simp at hcount
    | succ count =>
      have hinsert : ∀ t, (visited.insert time).contains t = true ↔ t ∈ time :: before := by
        intro t
        rw [Std.HashSet.contains_insert, Bool.or_eq_true, beq_iff_eq, hvisited, List.mem_cons,
          eq_comm]
      rw [walkFrom, if_neg (mt (hvisited _).1 hnew), hnext]
      change walkFrom bound l count (visited.insert time) (time :: before) next = _
      rw [ih hinsert (Nat.le_of_succ_le_succ hcount), List.reverse_cons, List.append_assoc]
      rfl

theorem Rounds.walk_eq (h : Rounds bound l [] 0 steps) (hcount : steps.length ≤ bound.toInt + 2) :
    walk bound l = .ok steps := by
  have hnone : ∀ t : Int64, (∅ : Std.HashSet Int64).contains t = true ↔ t ∈ ([] : List Int64) := by
    simp
  exact h.walkFrom_eq hnone (by omega)

end

section

variable {b : Nat} (hb : b < 2 ^ 63 - 2)

include hb

theorem range_ofNat {t : Nat} (ht : t ≤ b) : 0 ≤ Int64.ofNat t ∧ Int64.ofNat t ≤ .ofNat b :=
  ⟨Int64.not_lt.1 (of_decide_eq_false (decide_ofNat_neg (by omega))),
    (Int64.ofNat_le_iff_le (by omega) (by omega)).2 ht⟩

theorem ofNat_lt_sub_one_iff {t : Nat} (ht : t ≤ b) :
    Int64.ofNat t < Int64.ofNat b - 1 ↔ t + 1 < b := by
  cases b with
  | zero =>
    obtain rfl : t = 0 := by omega
    decide
  | succ b =>
    rw [ofNat_sub_one (Nat.succ_pos b), Int64.ofNat_lt_iff_lt (by omega) (by omega)]
    omega

theorem successor?_eq {l : Loop} (hl : l.check (.ofNat b) = .ok ()) (hall : l.isAll = false)
    {t : Nat} (ht : t ≤ b) :
    successor? (.ofNat t) (.ofNat b) l =
      .ok (if l.isNone ∧ t = b then Option.none
        else some ((l.absolute (.ofNat b)).successor (.ofNat b) (.ofNat t))) := by
  obtain ⟨hpos, hle⟩ := range_ofNat hb ht
  have hinside : (decide (Int64.ofNat t < 0) || decide (Int64.ofNat t > .ofNat b)) = false := by
    rw [decide_eq_false (Int64.not_lt.2 hpos), decide_eq_false (Int64.not_lt.2 hle)]
    rfl
  have hend : (Int64.ofNat t == Int64.ofNat b) = decide (t = b) := by
    rw [Bool.eq_iff_iff, beq_iff_eq, decide_eq_true_iff, ofNat_inj (by omega) (by omega)]
  rw [successor?, hl, hinside, hall, hend]
  by_cases h : l.isNone ∧ t = b
  · rw [if_pos h, h.1, decide_eq_true h.2]
    rfl
  · have hgoes : (l.isNone && decide (t = b)) = false := by
      rw [Bool.eq_false_iff, ne_eq, Bool.and_eq_true, decide_eq_true_iff]
      exact h
    rw [if_neg h, hgoes]
    rfl

theorem successor?_none {t : Nat} (ht : t ≤ b) :
    successor? (.ofNat t) (.ofNat b) none =
      .ok (if t = b then Option.none else some (.ofNat (t + 1))) := by
  have hcheck : Loop.none.check (.ofNat b) = .ok () := check_of_not_isSingle (by omega) rfl
  rw [successor?_eq hb hcheck rfl ht, Int64.ofNat_add]
  congr 1
  exact if_congr (and_iff_right rfl) rfl rfl

theorem successor?_single {l : Loop} (hl : l.check (.ofNat b) = .ok ()) (hsingle : l.isSingle)
    {j : Nat} (hj : j ≤ b) (habsolute : l.absolute (.ofNat b) = ⟨.ofNat j⟩) {t : Nat} (ht : t ≤ b) :
    successor? (.ofNat t) (.ofNat b) l =
      .ok (some (.ofNat (if t + 1 < b then t + 1 else j))) := by
  obtain ⟨hnone, hall⟩ := isSingle_iff.1 hsingle
  have htime : (Loop.mk (.ofNat j)).isNone = false :=
    (isSingle_iff.1 (isSingle_ofNat (by omega))).1
  rw [successor?_eq hb hl hall ht, hnone, habsolute, if_neg (fun h => Bool.noConfusion h.1),
    successor, htime]
  by_cases hnext : t + 1 < b
  · rw [if_pos hnext, Int64.ofNat_add, if_pos]
    · rfl
    · rw [decide_eq_true ((ofNat_lt_sub_one_iff hb ht).2 hnext)]
      rfl
  · rw [if_neg hnext, if_neg]
    rw [decide_eq_false (mt (ofNat_lt_sub_one_iff hb ht).1 hnext)]
    simp

/-- As long as a time is followed by the next one, the walk lists one after the other. -/
theorem Rounds.climb {l : Loop} {n : Nat} (hn : n ≤ b)
    (hnext : ∀ t < n, successor? (.ofNat t) (.ofNat b) l = .ok (some (.ofNat (t + 1))))
    {rest : List Int64} (hrest : Rounds (.ofNat b) l (firstTimes n).reverse (.ofNat n) rest) :
    Rounds (.ofNat b) l [] 0 (firstTimes n ++ rest) := by
  induction n generalizing rest with
  | zero => exact hrest
  | succ n ih =>
    rw [firstTimes_succ, List.append_assoc]
    apply ih (by omega) fun t ht => hnext t (by omega)
    apply Rounds.step (range_ofNat hb (by omega)) _ (hnext n (Nat.lt_succ_self n))
    · rwa [firstTimes_succ, List.reverse_append] at hrest
    · rw [List.mem_reverse, mem_firstTimes_iff (by omega) (by omega)]
      exact Nat.lt_irrefl n

omit hb in
theorem notMem_before {n t : Nat} (hn : n ≤ t) (ht : t < 2 ^ 63) :
    .ofNat t ∉ (firstTimes n).reverse := by
  rw [List.mem_reverse, mem_firstTimes_iff (by omega) ht]
  omega

theorem rounds_none : Rounds (.ofNat b) none [] 0 (firstTimes (b + 1)) := by
  rw [firstTimes_succ]
  apply Rounds.climb hb (Nat.le_refl b)
  · intro t ht
    rw [successor?_none hb (by omega), if_neg (by omega)]
  · apply Rounds.last (range_ofNat hb (Nat.le_refl b)) (notMem_before (Nat.le_refl b) (by omega))
    rw [successor?_none hb (Nat.le_refl b), if_pos rfl]

section

variable {l : Loop} (hl : l.check (.ofNat b) = .ok ()) (hsingle : l.isSingle)

include hl hsingle

/-- The last step before the bound leads back to the loop. -/
theorem rounds_back {j : Nat} (hj : j < b) (habsolute : l.absolute (.ofNat b) = ⟨.ofNat j⟩) :
    Rounds (.ofNat b) l [] 0 (firstTimes b ++ [.ofNat j]) := by
  obtain ⟨n, rfl⟩ : ∃ n, b = n + 1 := ⟨b - 1, by omega⟩
  have hnext := fun t ht => successor?_single hb hl hsingle (Nat.le_of_lt hj) habsolute (t := t) ht
  rw [firstTimes_succ, List.append_assoc]
  apply Rounds.climb hb (Nat.le_succ n)
  · intro t ht
    rw [hnext t (by omega), if_pos (by omega)]
  · apply Rounds.step (range_ofNat hb (Nat.le_succ n)) (notMem_before (Nat.le_refl n) (by omega))
    · rw [hnext n (Nat.le_succ n), if_neg (Nat.lt_irrefl _)]
    · apply Rounds.again (range_ofNat hb (Nat.le_of_lt hj))
      rw [← List.mem_reverse, List.reverse_cons, List.reverse_reverse, ← firstTimes_succ,
        mem_firstTimes_iff (by omega) (by omega)]
      exact hj

/-- A loop at the bound is reached from the step before it and leads back to itself. -/
theorem rounds_stay (habsolute : l.absolute (.ofNat b) = ⟨.ofNat b⟩) :
    Rounds (.ofNat b) l [] 0 (firstTimes (b + 1) ++ [.ofNat b]) := by
  have hnext := fun t ht => successor?_single hb hl hsingle (Nat.le_refl b) habsolute (t := t) ht
  rw [firstTimes_succ, List.append_assoc]
  apply Rounds.climb hb (Nat.le_refl b)
  · intro t ht
    rw [hnext t (by omega)]
    split
    · rfl
    · congr 3
      omega
  · have hrange := range_ofNat hb (Nat.le_refl b)
    apply Rounds.step hrange (notMem_before (Nat.le_refl b) (by omega))
    · rw [hnext b (Nat.le_refl b), if_neg (by omega)]
    · exact Rounds.again hrange List.mem_cons_self

omit hb in
theorem exists_absolute_le (hb : b < 2 ^ 63) :
    ∃ j ≤ b, l.absolute (.ofNat b) = ⟨.ofNat j⟩ := by
  unfold check at hl
  rw [hsingle, Bool.not_true, if_neg Bool.false_ne_true] at hl
  split at hl
  · cases hl
  split at hl
  · cases hl
  split at hl
  · cases hl
  · rename_i hneg hle
    obtain ⟨j, hj, hword⟩ := exists_ofNat (Int64.not_lt.1 hneg)
    rw [gt_iff_lt, Int64.not_lt, hword, Int64.ofNat_le_iff_le hj hb] at hle
    exact ⟨j, hle, congrArg Loop.mk hword⟩

end

end

theorem explain_eq {b : Nat} (hb : b < 2 ^ 63) {l : Loop} (hl : l.check (.ofNat b) = .ok ())
    (hall : l.isAll = false) {steps : List Int64} (hwalk : walk (.ofNat b) l = .ok steps)
    {text : String} (htext : parse? text.toList = some l) :
    explain (.ofNat b) text =
      if longestWalk < b + 1 then .error .unbounded
      else .ok ((if l.isNone then "no loop, visiting "
          else "loop " ++ number (l.absolute (.ofNat b)).word ++ ", visiting ") ++
        " -> ".intercalate (steps.map number)) := by
  rw [explain, htext]
  simp only [hl, hall, hwalk, Int64.toInt_ofNat_of_lt hb]
  change (if (b : Int) + 1 > longestWalk then _ else _) = _
  split
  · rfl
  · cases l.isNone <;> rfl

section

variable {b : Nat} (hb : b < 2 ^ 63 - 2) {l : Loop} (hl : l.check (.ofNat b) = .ok ())
  (hall : l.isAll = false)

include hb hl hall

theorem exists_rounds :
    ∃ steps, Rounds (.ofNat b) l [] 0 steps ∧ steps.length ≤ b + 2 ∧ steps.dropLast.Nodup ∧
      ((l.isNone ∧ steps = firstTimes (b + 1)) ∨
        (∃ j < b, l.isSingle ∧ l.absolute (.ofNat b) = ⟨.ofNat j⟩ ∧
          steps = firstTimes b ++ [.ofNat j] ∧ .ofNat b ∉ steps) ∨
        (l.isSingle ∧ l.absolute (.ofNat b) = ⟨.ofNat b⟩ ∧
          steps = firstTimes (b + 1) ++ [.ofNat b])) := by
  have hlength : ∀ n, (firstTimes n).length = n := fun n => by simp [firstTimes]
  cases hnone : l.isNone with
  | true =>
    obtain rfl : l = none := of_decide_eq_true hnone
    refine ⟨firstTimes (b + 1), rounds_none hb, ?_, ?_, .inl ⟨rfl, rfl⟩⟩
    · rw [hlength]
      omega
    · rw [firstTimes_succ, List.dropLast_concat]
      exact nodup_firstTimes (by omega)
  | false =>
    have hsingle : l.isSingle := isSingle_iff.2 ⟨hnone, hall⟩
    obtain ⟨j, hj, habsolute⟩ := exists_absolute_le hl hsingle (by omega)
    rcases Nat.lt_or_eq_of_le hj with hlt | rfl
    · refine ⟨_, rounds_back hb hl hsingle hlt habsolute, ?_, ?_,
        .inr (.inl ⟨j, hlt, hsingle, habsolute, rfl, ?_⟩)⟩
      · rw [List.length_append, hlength]
        exact Nat.le_succ (b + 1)
      · rw [List.dropLast_concat]
        exact nodup_firstTimes (by omega)
      · rw [List.mem_append, List.mem_singleton, mem_firstTimes_iff (by omega) (by omega),
          ofNat_inj (by omega) (by omega)]
        omega
    · refine ⟨_, rounds_stay hb hl hsingle habsolute, ?_, ?_,
        .inr (.inr ⟨hsingle, habsolute, rfl⟩)⟩
      · rw [List.length_append, hlength]
        exact Nat.le_refl _
      · rw [List.dropLast_concat]
        exact nodup_firstTimes (by omega)

/-- The walk along a path ends without an error and looks up no time out of range.  It lists the
times up to the bound, or up to the one that leads back and then the loop; of these only the last
can come twice. -/
theorem walk_lists :
    ∃ steps, Rounds (.ofNat b) l [] 0 steps ∧ walk (.ofNat b) l = .ok steps ∧
      (∀ t ∈ steps, 0 ≤ t ∧ t ≤ .ofNat b) ∧ steps.dropLast.Nodup ∧
      ((l.isNone ∧ steps = firstTimes (b + 1)) ∨
        (∃ j < b, l.isSingle ∧ l.absolute (.ofNat b) = ⟨.ofNat j⟩ ∧
          steps = firstTimes b ++ [.ofNat j] ∧ .ofNat b ∉ steps) ∨
        (l.isSingle ∧ l.absolute (.ofNat b) = ⟨.ofNat b⟩ ∧
          steps = firstTimes (b + 1) ++ [.ofNat b])) ∧
      ∀ text, parse? text.toList = some l →
        explain (.ofNat b) text =
          if longestWalk < b + 1 then .error .unbounded
          else .ok ((if l.isNone then "no loop, visiting "
              else "loop " ++ number (l.absolute (.ofNat b)).word ++ ", visiting ") ++
            " -> ".intercalate (steps.map number)) := by
  obtain ⟨steps, hrounds, hlength, hnodup, hshape⟩ := exists_rounds hb hl hall
  have hbound : (Int64.ofNat b).toInt = b := Int64.toInt_ofNat_of_lt (by omega)
  have hwalk := hrounds.walk_eq (by omega)
  refine ⟨steps, hrounds, hwalk, hrounds.in_range, hnodup, hshape, fun text htext => ?_⟩
  exact explain_eq (by omega) hl hall hwalk htext

end

/-- A loop that is given as two steps before the bound. -/
theorem walk_lists_relative :
    Loop.check (.ofNat 3) ⟨-2⟩ = .ok () ∧ Loop.isAll ⟨-2⟩ = false ∧
      walk (.ofNat 3) ⟨-2⟩ = .ok [0, 1, 2, 1] ∧
      explain (.ofNat 3) "-2" = .ok "loop 1, visiting 0 -> 1 -> 2 -> 1" := by
  have hcheck : Loop.check (.ofNat 3) ⟨-2⟩ = .ok () := by rfl
  have hall : Loop.isAll ⟨-2⟩ = false := by decide
  obtain ⟨steps, -, hwalk, -, -, hshape, hexplain⟩ := walk_lists (by decide) hcheck hall
  have habsolute : (Loop.mk (-2)).absolute (.ofNat 3) = ⟨.ofNat 1⟩ := by decide
  obtain rfl : steps = [0, 1, 2, 1] := by
    rcases hshape with ⟨hnone, -⟩ | ⟨j, hj, -, hat, rfl, -⟩ | ⟨-, hat, -⟩
    · exact absurd hnone (by decide)
    · have hword := congrArg Loop.word (hat.symm.trans habsolute)
      rw [(ofNat_inj (by omega) (by omega)).1 hword]
      decide
    · exact absurd (hat.symm.trans habsolute) (by decide)
  refine ⟨hcheck, hall, hwalk, ?_⟩
  rw [hexplain "-2" (by decide +kernel), if_neg (by decide)]
  exact congrArg Except.ok (by decide +kernel)

end Loop

end Lasso
