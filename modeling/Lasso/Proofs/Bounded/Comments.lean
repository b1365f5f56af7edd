import Mathlib.Data.List.Basic
import Lasso.Report.Check
import Lasso.Proofs.Bounded.Horizon
import Lasso.Proofs.Bounded.SingleLoop
import Lasso.Proofs.Machine.Accepted
import Lasso.Proofs.Machine.ModelFile

/-! # Names in written problems

A problem of a length is about the variables of the machine at the steps of its paths.  Each of
them has a name that no other has, and the comments of a written problem name each of them once.
-/

namespace Lasso

set_option autoImplicit false

/-- A formula so many steps ahead. -/
def Formula.ahead (f : Formula) : Nat → Formula
  | 0 => f
  | n + 1 => .unary .next (f.ahead n)

theorem isDigit_of_mem_toString {n : Nat} {c : Char} (h : c ∈ (toString n).toList) :
    c.isDigit = true := by
  rw [Nat.toString_eq_ofList_toDigits, String.toList_ofList] at h
  exact Nat.isDigit_of_mem_toDigits (by decide) (by decide) h

theorem notMem_toString {c : Char} (hc : c.isDigit = false) (n : Nat) :
    c ∉ (toString n).toList := by
  intro h
  rw [isDigit_of_mem_toString h] at hc
  cases hc

theorem toString_inj {t u : Nat} (h : toString t = toString u) : t = u := by
  have hread : ∀ n : Nat, Nat.ofDigitChars 10 (toString n).toList 0 = n := by
    intro n
    rw [Nat.toString_eq_ofList_toDigits, String.toList_ofList]
    exact Nat.ofDigitChars_toDigits (by decide) (by decide)
  rw [← hread t, h, hread u]

/-- A name and a number that are joined by a sign that is no digit can be told apart again, even if
the sign is part of the name. -/
theorem timedName_inj {x y : String} {t u : Nat}
    (h : x ++ "@" ++ toString t = y ++ "@" ++ toString u) : x = y ∧ t = u := by
  have hsplit : ∀ (z : String) (n : Nat), (z ++ "@" ++ toString n).toList.reverse =
      (toString n).toList.reverse ++ '@' :: z.toList.reverse := by
    intro z n
    simp
  have hnone : ∀ n : Nat, '@' ∉ (toString n).toList.reverse := fun n hmem =>
    notMem_toString (by decide) n (List.mem_reverse.1 hmem)
  have hlists := congrArg (fun z : String => z.toList.reverse) h
  simp only [hsplit] at hlists
  have htime : (toString t).toList.reverse = (toString u).toList.reverse := by
    have hparts := congrArg (List.splitOn '@') hlists
    rw [List.splitOn_append_cons_self_of_not_mem (hnone t),
      List.splitOn_append_cons_self_of_not_mem (hnone u)] at hparts
    exact (List.cons.inj hparts).1
  rw [htime, List.append_right_inj, List.cons.injEq, List.reverse_inj, String.toList_inj] at hlists
  rw [List.reverse_inj, String.toList_inj] at htime
  exact ⟨hlists.2, toString_inj htime⟩

/-- The comments of a problem in the exchange format: the lines that start with a certain letter. -/
def commentLines (text : String) : List String :=
  ((text.toList.splitOn '\n').filter fun l => l.head? = some 'c').map String.ofList

theorem commentLines_cons {l : String} (hl : '\n' ∉ l.toList) (rest : String) :
    commentLines (l ++ "\n" ++ rest) =
      if l.toList.head? = some 'c' then l :: commentLines rest else commentLines rest := by
  have hlist : (l ++ "\n" ++ rest).toList = l.toList ++ '\n' :: rest.toList := by simp
  rw [commentLines, hlist, List.splitOn_append_cons_self_of_not_mem hl, List.filter_cons]
  by_cases hc : l.toList.head? = some 'c'
  · rw [if_pos (by simpa using hc), if_pos hc, List.map_cons, String.ofList_toList]
    rfl
  · rw [if_neg (by simpa using hc), if_neg hc]
    rfl

theorem commentLines_join {ls : List String} (hnl : ∀ l ∈ ls, '\n' ∉ l.toList)
    (hc : ∀ l ∈ ls, l.toList.head? = some 'c') (rest : String) :
    commentLines (String.join (ls.map (· ++ "\n")) ++ rest) = ls ++ commentLines rest := by
  induction ls with
  | nil => simp
  | cons l ls ih =>
    have hjoin : String.join ((l :: ls).map (· ++ "\n")) ++ rest =
        l ++ "\n" ++ (String.join (ls.map (· ++ "\n")) ++ rest) := by
      simp [String.append_assoc]
    rw [hjoin, commentLines_cons (hnl l List.mem_cons_self), if_pos (hc l List.mem_cons_self),
      ih (fun k hk => hnl k (List.mem_cons_of_mem l hk))
        fun k hk => hc k (List.mem_cons_of_mem l hk)]
    rfl

theorem commentLines_skip {ls : List String} (hnl : ∀ l ∈ ls, '\n' ∉ l.toList)
    (hc : ∀ l ∈ ls, l.toList.head? ≠ some 'c') :
    commentLines (String.join (ls.map (· ++ "\n"))) = [] := by
  induction ls with
  | nil => rfl
  | cons l ls ih =>
    have hjoin : String.join ((l :: ls).map (· ++ "\n")) =
        l ++ "\n" ++ String.join (ls.map (· ++ "\n")) := by simp
    rw [hjoin, commentLines_cons (hnl l List.mem_cons_self), if_neg (hc l List.mem_cons_self)]
    exact ih (fun k hk => hnl k (List.mem_cons_of_mem l hk))
      fun k hk => hc k (List.mem_cons_of_mem l hk)

namespace Dimacs

/-- What is neither a comment nor breaks a line. -/
def Plain (text : String) : Prop := ∀ ch ∈ text.toList, ch ≠ 'c' ∧ ch ≠ '\n'

theorem Plain.append {text text' : String} (h : Plain text) (h' : Plain text') :
    Plain (text ++ text') := by
  intro ch hch
  rw [String.toList_append, List.mem_append] at hch
  exact hch.elim (h ch) (h' ch)

theorem plain_nat (n : Nat) : Plain (toString n) := by
  intro ch hch
  have hdigit := isDigit_of_mem_toString hch
  constructor
  · rintro rfl
    cases hdigit
  · rintro rfl
    cases hdigit

theorem plain_int (z : Int) : Plain (toString z) := by
  have hminus : Plain "-" := by
    intro ch hch
    obtain rfl := List.mem_singleton.1 hch
    decide
  rw [Int.toString_eq_repr, Int.repr_eq_if]
  split
  · exact plain_nat z.toNat
  · exact hminus.append (plain_nat (-z).toNat)

def clauseLine (c : Clause) : String :=
  c.foldl (fun text l => text ++ toString l.signed ++ " ") "" ++ "0"

theorem renderClause_eq (c : Clause) : renderClause c = clauseLine c ++ "\n" := by
  rw [renderClause, clauseLine, String.append_assoc]
  rfl

theorem plain_clauseLine (c : Clause) : Plain (clauseLine c) := by
  have hliterals : ∀ text, Plain text →
      Plain (c.foldl (fun text l => text ++ toString l.signed ++ " ") text) := by
    induction c with
    | nil => exact fun _ h => h
    | cons l c ih =>
      intro text h
      refine ih _ ((h.append (plain_int l.signed)).append ?_)
      intro ch hch
      obtain rfl := List.mem_singleton.1 hch
      decide
  refine (hliterals "" (fun ch hch => by simp at hch)).append ?_
  exact plain_nat 0

theorem Plain.head?_ne {text : String} (h : Plain text) : text.toList.head? ≠ some 'c' :=
  fun hhead => (h 'c' (List.mem_of_head? hhead)).1 rfl

theorem commentLines_render (d : Dimacs) : commentLines d.render = [] := by
  have hclauses : d.clauses.map renderClause = (d.clauses.map clauseLine).map (· ++ "\n") := by
    rw [List.map_map]
    exact List.map_congr_left fun c _ => renderClause_eq c
  have hnl : ∀ l ∈ d.clauses.map clauseLine, '\n' ∉ l.toList := by
    intro l hl hmem
    obtain ⟨c, -, rfl⟩ := List.mem_map.1 hl
    exact (plain_clauseLine c _ hmem).2 rfl
  have hc : ∀ l ∈ d.clauses.map clauseLine, l.toList.head? ≠ some 'c' := by
    intro l hl
    obtain ⟨c, -, rfl⟩ := List.mem_map.1 hl
    exact (plain_clauseLine c).head?_ne
  have hheader : '\n' ∉
      ("p cnf " ++ toString d.maxVar ++ " " ++ toString d.clauses.length).toList := by
    intro hmem
    simp only [String.toList_append, List.mem_append] at hmem
    rcases hmem with ((hmem | hmem) | hmem) | hmem
    · revert hmem
      decide
    · exact (plain_nat _ _ hmem).2 rfl
    · revert hmem
      decide
    · exact (plain_nat _ _ hmem).2 rfl
  rw [render_eq, hclauses, commentLines_cons hheader, if_neg (by simp), commentLines_skip hnl hc]

end Dimacs

namespace Encoder

open Encoding

/-- The comment on a boolean variable. -/
def comment (e : Encoding) (v : Lit) : String :=
  "c " ++ toString v.var ++ " " ++ (e.name? v.var).getD ""

theorem dimacs_eq {m : Machine} {f : Formula} {bound : Int64} {l : Loop} {s : Encoder}
    (hok : (problem m f bound l s).1.error? = none) :
    (dimacs m f bound l s).1 = .ok
      (String.join (((problem m f bound l s).2.encoding.graph.support
          (problem m f bound l s).1.expr).map fun v =>
        comment (problem m f bound l s).2.encoding v ++ "\n") ++
      ((problem m f bound l s).2.encoding.graph.dimacs
        [(problem m f bound l s).1.expr]).render) := by
  unfold dimacs
  rw [bind_apply]
  generalize problem m f bound l s = r at hok
  obtain ⟨⟨root, error?⟩, s'⟩ := r
  obtain rfl : error? = none := hok
  rfl

theorem problem_rests [Solver] {M : Model} (hM : M.WellFormed)
    (hformed : M.machine.Formed M.encoding) {table : Table} {s : Encoder}
    (hsteps : Steps M.machine (fresh M.encoding table) s)
    (hvars : s.encoding.vars = M.encoding.vars) (f : Formula) (bound : Int64) (l : Loop) :
    Later M.encoding (problem M.machine f bound l s).2.encoding ∧
      (problem M.machine f bound l s).2.encoding.Rests
        (Origin.Within M.encoding.vars.size (Reached M.machine f bound l))
        (problem M.machine f bound l s).1.expr := by
  have wf := hM.encoding
  have wfresh := wellFormed_of_entries (s := fresh M.encoding table) wf rfl
  obtain ⟨hfaithful, hlater⟩ :=
    hsteps.faithful wfresh hM.machine (faithful_of_entries wf rfl) hvars
  -- the recursion without a memory returns the same and makes the same nodes
  obtain ⟨hvalue, hencoding⟩ := (problem_mirror wf hM.machine f bound l s hfaithful
    hlater.grows).same s rfl
  obtain ⟨-, hlater', hrests⟩ := problem_confined rfl wf hformed f bound l hM.machine s hlater
  rw [hencoding, problemBy_remember] at hlater'
  rw [Rested, hvalue, hencoding, problemBy_remember] at hrests
  exact ⟨hlater.trans hlater', hrests⟩

/-- A boolean variable for a variable of the machine at a step of a path, and its name. -/
structure Names (e : Encoding) (m : Machine) (f : Formula) (bound : Int64) (l : Loop) (v : Nat)
    (x : Variable) (t : UInt64) : Prop where
  declared : e.vars[x.index]? = some x
  origin : e.origins[v]? = some (.timed x.index t)
  time : Ends m f bound l → (t.toNat : Int) ≤ bound.toInt
  name : e.name? v = some (x.name ++ "@" ++ toString t.toNat)

theorem exists_names {e : Encoding} (wf : e.WellFormed) {m : Machine} {f : Formula}
    {bound : Int64} {l : Loop} {v : Nat} {o : Origin} (ho : e.origins[v]? = some o)
    (hwithin : o.Within e.vars.size (Reached m f bound l)) : ∃ x t, Names e m f bound l v x t := by
  cases o with
  | timed i t =>
    obtain ⟨hi, ht⟩ := hwithin
    have hx : e.vars[i]? = some e.vars[i] := Array.getElem?_eq_getElem hi
    have hindex := wf.index i _ hx
    refine ⟨e.vars[i], t, by rw [hindex]; exact hx, by rw [hindex]; exact ho, ht, ?_⟩
    have hname : e.nameOfIndex i = e.vars[i].name := by
      rw [nameOfIndex, hx]
      rfl
    rw [name?, ho, Option.map_some, ← hname]
  | current i => exact hwithin.elim
  | next i => exact hwithin.elim

theorem Names.unique {e : Encoding} (wf : e.WellFormed) (hnamed : e.Named) {m : Machine}
    {f : Formula} {bound : Int64} {l : Loop} {v w : Nat} {x y : Variable} {t u : UInt64}
    (h : Names e m f bound l v x t) (h' : Names e m f bound l w y u)
    (hname : e.name? v = e.name? w) : v = w := by
  rw [h.name, h'.name, Option.some.injEq] at hname
  obtain ⟨hxy, htu⟩ := timedName_inj hname
  have hindex := hnamed.unique _ _ x y h.declared h'.declared hxy
  have horigin := h'.origin
  rw [← hindex, ← UInt64.toNat_inj.1 htu] at horigin
  have hv := (wf.timeline x.index t (.pos v)).2 ⟨rfl, h.origin⟩
  have hw := (wf.timeline x.index t (.pos w)).2 ⟨rfl, horigin⟩
  rw [hv, Option.some.injEq] at hw
  exact Lit.pos_inj.1 hw

theorem Names.comment_eq {e : Encoding} {m : Machine} {f : Formula} {bound : Int64} {l : Loop}
    {v : Lit} {x : Variable} {t : UInt64} (h : Names e m f bound l v.var x t) : comment e v =
      "c " ++ toString v.var ++ " " ++ (x.name ++ "@" ++ toString t.toNat) := by
  rw [comment, h.name, Option.getD_some]

theorem Names.newline_notMem_comment {e : Encoding} (hworded : Model.Worded e) {m : Machine}
    {f : Formula}
    {bound : Int64} {l : Loop} {v : Lit} {x : Variable} {t : UInt64}
    (h : Names e m f bound l v.var x t) :
    '\n' ∉ (comment e v).toList := by
  have hname : '\n' ∉ x.name.toList := fun hmem =>
    absurd (hworded.word x (Array.mem_of_getElem? h.declared) _ hmem) (by decide)
  have hdigits := notMem_toString (c := '\n') (by decide)
  have hmark : '\n' ∉ "c ".toList ∧ '\n' ∉ " ".toList ∧ '\n' ∉ "@".toList := by decide
  rw [h.comment_eq]
  simp only [String.toList_append, List.mem_append, not_or]
  exact ⟨⟨⟨hmark.1, hdigits v.var⟩, hmark.2.1⟩, ⟨hname, hmark.2.2⟩, hdigits t.toNat⟩

/-- A problem of a length that an encoder makes for a machine that was read is about variables of
the machine at steps from zero to the length.  When it is written, its comments are one for each of
these variables, under names of which no two are the same, whatever the variables are called.

Only where the length is the largest and there is neither a single loop nor anything to be fair
about, next states above one another may lead beyond the last step. -/
theorem problem_names_steps [Solver] {source : Source} {table table' : Table} {M : Model}
    (hread : (Model.read source table).1 = .ok M) {s : Encoder}
    (hsteps : Steps M.machine (fresh M.encoding table') s)
    (hvars : s.encoding.vars = M.encoding.vars) (f : Formula) (bound : Int64) (l : Loop)
    {root : Lit} {s' : Encoder} (hproblem : problem M.machine f bound l s = (⟨root, none⟩, s')) :
    (∀ v ∈ s'.encoding.graph.support root, ∃ x ∈ M.encoding.vars, ∃ t : UInt64,
      s'.encoding.origins[v.var]? = some (.timed x.index t) ∧
      s'.encoding.name? v.var = some (x.name ++ "@" ++ toString t.toNat) ∧
      (Ends M.machine f bound l → (t.toNat : Int) ≤ bound.toInt)) ∧
    ∃ text, (dimacs M.machine f bound l s).1 = .ok text ∧
      commentLines text = (s'.encoding.graph.support root).map (comment s'.encoding) ∧
      (s'.encoding.graph.support root).Nodup ∧
      ((s'.encoding.graph.support root).map fun v => s'.encoding.name? v.var).Nodup := by
  obtain ⟨hM, hformed, hworded⟩ := Model.accepted_of_read hread
  obtain ⟨hlater, hrests⟩ := problem_rests hM hformed hsteps hvars f bound l
  have hok : (problem M.machine f bound l s).1.error? = none := by rw [hproblem]
  have hdimacs := dimacs_eq hok
  rw [hproblem] at hlater hrests hdimacs
  have wf := hlater.wf
  have hworded' := hworded.of_vars hlater.vars
  -- the problem rests on variables at times; all the rest is about how these are named
  have hnames : ∀ v ∈ s'.encoding.graph.support root,
      ∃ x t, Names s'.encoding M.machine f bound l v.var x t := by
    intro v hv
    obtain ⟨o, ho, hwithin⟩ := hrests.of_mem_support wf hv
    rw [← hlater.vars] at hwithin
    exact exists_names wf ho hwithin
  refine ⟨fun v hv => ?_, _, hdimacs, ?_, Graph.support_nodup _ _, ?_⟩
  · obtain ⟨x, t, h⟩ := hnames v hv
    exact ⟨x, hlater.vars ▸ Array.mem_of_getElem? h.declared, t, h.origin, h.name, h.time⟩
  · have hnl : ∀ line ∈ (s'.encoding.graph.support root).map (comment s'.encoding),
        '\n' ∉ line.toList := by
      intro line hline
      obtain ⟨v, hv, rfl⟩ := List.mem_map.1 hline
      obtain ⟨x, t, h⟩ := hnames v hv
      exact h.newline_notMem_comment hworded'
    have hc : ∀ line ∈ (s'.encoding.graph.support root).map (comment s'.encoding),
        line.toList.head? = some 'c' := by
      intro line hline
      obtain ⟨v, -, rfl⟩ := List.mem_map.1 hline
      simp [comment]
    have hjoin := commentLines_join hnl hc (s'.encoding.graph.dimacs [root]).render
    rw [List.map_map, Dimacs.commentLines_render, List.append_nil] at hjoin
    exact hjoin
  · refine List.Nodup.map_on (fun v hv w hw hname => ?_) (Graph.support_nodup _ _)
    obtain ⟨x, t, h⟩ := hnames v hv
    obtain ⟨y, u, h'⟩ := hnames w hw
    have hpos := (Graph.mem_support_iff.1 hv).1
    have hpos' := (Graph.mem_support_iff.1 hw).1
    rw [hpos, hpos', h.unique wf hworded'.toNamed h' hname]

def atNames : Source := .ofString "names" "(var a a@1)"

theorem terms_atNames : atNames.terms = .ok [.list ⟨0, 11⟩ [.symbol ⟨1, 4⟩ "var",
    .symbol ⟨5, 6⟩ "a", .symbol ⟨7, 10⟩ "a@1"]] := by cbv

theorem exists_read_atNames : ∃ M, (Model.read atNames ∅).1 = .ok M ∧ M.machine = {} ∧
    M.encoding.accepts false (.symbol () "a") ∧
    M.encoding.accepts false (.symbol () "a@1") := by
  rw [Model.read_eq terms_atNames]
  exact ⟨_, rfl, rfl, by decide, by decide⟩

theorem problem_names_steps_atNames : ∃ (M : Model) (root : Lit) (s' : Encoder),
    let f : Formula := .binary .or (.atom (.symbol () "a"))
      (.unary .next (.atom (.symbol () "a@1")))
    let s := fresh M.encoding {}
    (Model.read atNames ∅).1 = .ok M ∧ problem M.machine f 2 ⟨1⟩ s = (⟨root, none⟩, s') ∧
    (∀ v ∈ s'.encoding.graph.support root, ∃ x ∈ M.encoding.vars, ∃ t : UInt64,
      s'.encoding.origins[v.var]? = some (.timed x.index t) ∧
      s'.encoding.name? v.var = some (x.name ++ "@" ++ toString t.toNat) ∧
      t.toNat ≤ 2) ∧
    ∃ text, (dimacs M.machine f 2 ⟨1⟩ s).1 = .ok text ∧
      commentLines text = (s'.encoding.graph.support root).map (comment s'.encoding) ∧
      (s'.encoding.graph.support root).Nodup ∧
      ((s'.encoding.graph.support root).map fun v => s'.encoding.name? v.var).Nodup := by
  obtain ⟨M, hread, -, ha, ha'⟩ := exists_read_atNames
  obtain ⟨hM, -⟩ := Model.accepted_of_read hread
  let f : Formula := .binary .or (.atom (.symbol () "a")) (.unary .next (.atom (.symbol () "a@1")))
  have hatoms : ∀ x ∈ f.atoms, M.encoding.accepts false x := by
    intro x hx
    obtain rfl | rfl := List.mem_pair.1 hx
    · exact ha
    · exact ha'
  have hencodes := problem_encodes f (.ofNat 2) ⟨1⟩
    (wellFormed_of_entries (s := fresh M.encoding {}) hM.encoding rfl) hM.machine
  have hok := hencodes.succeeds.2 (violationOk_of_isFuture (l := 1) (by decide) (by decide)
    (.inl rfl) (by decide) M.machine rfl hatoms)
  generalize hr : problem M.machine f (.ofNat 2) ⟨1⟩ (fresh M.encoding {}) = r at hok
  obtain ⟨⟨root, error?⟩, s'⟩ := r
  obtain rfl : error? = none := hok
  obtain ⟨hnames, hcomments⟩ := problem_names_steps hread .refl rfl f 2 ⟨1⟩ hr
  refine ⟨M, root, s', hread, hr, fun v hv => ?_, hcomments⟩
  obtain ⟨x, hx, t, horigin, hname, htime⟩ := hnames v hv
  exact ⟨x, hx, t, horigin, hname, Int.ofNat_le.1 (htime (.inl (by decide)))⟩

/-- No time is beyond the largest bound. -/
theorem not_gt_maxValue (time : Int64) : ¬ time > Int64.maxValue :=
  Int64.not_lt.2 (Int64.le_maxValue time)

section

variable (f : Formula)

theorem negation_ahead (n : Nat) : (f.ahead n).negation = f.negation.ahead n := by
  induction n with
  | zero => rfl
  | succ n ih =>
    rw [Formula.ahead, Formula.ahead, ← ih]
    rfl

theorem straightValue_ahead (p : Int64 → Expr → Bool) (n : Nat) (time : Int64) :
    straightValue p Int64.maxValue (f.ahead n) time =
      straightValue p Int64.maxValue f (time + .ofNat n) := by
  induction n generalizing time with
  | zero =>
    rw [Formula.ahead]
    exact congrArg _ (Int64.add_zero time).symm
  | succ n ih =>
    rw [Formula.ahead, straightValue, decide_eq_false (not_gt_maxValue time), Bool.not_false,
      Bool.true_and, ih, Int64.ofNat_add, Int64.add_assoc, Int64.add_comm (.ofNat n)]
    rfl

theorem straightOk_ahead (acc : Expr → Bool) (n : Nat) (time : Int64) :
    straightOk acc Int64.maxValue (f.ahead n) time =
      straightOk acc Int64.maxValue f (time + .ofNat n) := by
  induction n generalizing time with
  | zero =>
    rw [Formula.ahead]
    exact congrArg _ (Int64.add_zero time).symm
  | succ n ih =>
    rw [Formula.ahead, straightOk, decide_eq_false (not_gt_maxValue time), Bool.false_or, ih,
      Int64.ofNat_add, Int64.add_assoc, Int64.add_comm (.ofNat n)]
    rfl

end

/-- An expression whose value changes with what is late depends on something late. -/
theorem exists_late_of_denotes {e : Encoding} {l : Lit} {φ : View → Bool} (h : e.Denotes l φ)
    {last : Nat} {V V' : View}
    (hearly : ∀ o, (∀ i t, o = Origin.timed i t → t.toNat ≤ last) → V o = V' o)
    (hne : φ V ≠ φ V') :
    ∃ v ∈ e.graph.support l, ∃ i t, e.origins[v.var]? = some (.timed i t) ∧ last < t.toNat := by
  by_contra hnone
  refine hne ?_
  rw [h.eq_eval_assign V, h.eq_eval_assign V']
  refine Graph.eval_congr_of_support fun v hv => ?_
  rw [assign, assign]
  cases ho : e.origins[v.var]? with
  | none => rfl
  | some o =>
    refine hearly o ?_
    rintro i t rfl
    exact Nat.not_lt.1 fun hlate => hnone ⟨v, hv, i, t, ho, hlate⟩

/-- The variables have a value at the times after the largest bound, and are false elsewhere. -/
def onlyLate (b : Bool) : View
  | .timed _ t => b && decide (2 ^ 63 ≤ t.toNat)
  | _ => false

theorem onlyLate_congr {o : Origin} (b b' : Bool)
    (ho : ∀ i t, o = .timed i t → t.toNat ≤ Int64.maxValue.toUInt64.toNat) :
    onlyLate b o = onlyLate b' o := by
  cases o with
  | timed i t =>
    have hearly : ¬ 2 ^ 63 ≤ t.toNat := Nat.not_le.2 (Nat.lt_succ_of_le (ho i t rfl))
    rw [onlyLate, onlyLate, decide_eq_false hearly, Bool.and_false, Bool.and_false]
  | current i => rfl
  | next i => rfl

section

variable {M : Model} {n : Nat} (hmachine : M.machine = {})

include hmachine

theorem isPath_of_machine_eq_empty (w : Nat → Letter) (k : Nat) :
    M.machine.IsPath M.encoding w k := by
  have htruth : ∀ a a', M.encoding.holds Graph.truth a a' := fun _ _ => Graph.eval_truth _ _
  rw [hmachine]
  exact ⟨htruth _ _, fun _ _ => htruth _ _, fun _ _ => htruth _ _⟩

variable (ha : M.encoding.accepts false (.symbol () "a"))

include ha

theorem violationOk_ahead :
    violationOk M.machine ((Formula.atom (.symbol () "a")).ahead n) Int64.maxValue .none
      (M.encoding.accepts false) := by
  have hnegation : ((Formula.atom (.symbol () "a")).ahead n).negation =
      (Formula.unary .not (.atom (.symbol () "a"))).ahead n := negation_ahead _ n
  rw [violationOk, hnegation, hmachine]
  change (straightArgs 0 Int64.maxValue 0 && straightOk _ Int64.maxValue _ 0) = true
  rw [straightOk_ahead, straightOk, straightOk, decide_eq_false (not_gt_maxValue _)]
  exact ha

theorem violationValue_ahead (hn : 2 ^ 63 ≤ n) (hn' : n < 2 ^ 64) (b : Bool) :
    violationValue M.machine ((Formula.atom (.symbol () "a")).ahead n) Int64.maxValue .none
      M.encoding M.encoding.atoms (onlyLate b) = !b := by
  have hnat : (0 + Int64.ofNat n + 0).toUInt64.toNat = n := by
    rw [Int64.add_zero, Int64.zero_add, Int64.toUInt64_ofNat', UInt64.toNat_ofNat_of_lt' hn']
  obtain ⟨l, hl⟩ := Option.isSome_iff_exists.1 ha
  obtain ⟨x, hx, -⟩ : ∃ x, M.encoding.lookup? "a" = some x ∧ x.current = l :=
    Option.map_eq_some_iff.1 hl
  have hnegation : ((Formula.atom (.symbol () "a")).ahead n).negation =
      (Formula.unary .not (.atom (.symbol () "a"))).ahead n := negation_ahead _ n
  rw [violationValue, hnegation, hmachine]
  change straightValue _ Int64.maxValue _ 0 = _
  rw [straightValue_ahead, straightValue, straightValue, decide_eq_false (not_gt_maxValue _)]
  change (!((M.encoding.lookup? "a").elim false fun x =>
    b && decide (2 ^ 63 ≤ (0 + Int64.ofNat n + 0).toUInt64.toNat))) = _
  rw [hx, Option.elim_some, hnat, decide_eq_true hn, Bool.and_true]

end

/-- A formula that looks beyond the largest bound is looked up there. -/
theorem problem_ahead_late {M : Model} (hread : (Model.read atNames ∅).1 = .ok M)
    (hmachine : M.machine = {}) (ha : M.encoding.accepts false (.symbol () "a")) {n : Nat}
    (hn : 2 ^ 63 ≤ n) (hn' : n < 2 ^ 64) :
    let f : Formula := .atom (.symbol () "a")
    let r := problem M.machine (f.ahead n) Int64.maxValue .none (fresh M.encoding {})
    r.1.error? = none ∧ ∃ v ∈ r.2.encoding.graph.support r.1.expr, ∃ i t,
      r.2.encoding.origins[v.var]? = some (.timed i t) ∧ Int64.maxValue.toInt < t.toNat := by
  intro f r
  obtain ⟨wfe, hover⟩ := Model.wellFormed_of_read hread
  have wf := wellFormed_of_entries (s := fresh M.encoding {}) wfe rfl
  have hencodes := problem_encodes (f.ahead n) Int64.maxValue .none wf hover
  have hok : r.1.error? = none := hencodes.succeeds.2 (violationOk_ahead hmachine ha)
  have hdenotes := hencodes.means hok _ (M.encoding.interprets_atoms.of_vars hencodes.evolves.vars)
  -- the problem is violated or not as the variables are after the largest bound
  have hvalue : ∀ b, (decide (M.machine.IsPath M.encoding (onlyLate b).word
      Int64.maxValue.toUInt64.toNat) && violationValue M.machine (f.ahead n) Int64.maxValue .none
        M.encoding M.encoding.atoms (onlyLate b)) = !b := fun b => by
    rw [decide_eq_true (isPath_of_machine_eq_empty hmachine _ _),
      violationValue_ahead hmachine ha hn hn', Bool.true_and]
  obtain ⟨v, hv, i, t, ho, ht⟩ := exists_late_of_denotes hdenotes
    (fun _ => onlyLate_congr false true) fun heq =>
      Bool.false_ne_true ((hvalue true).symm.trans (heq.symm.trans (hvalue false)))
  exact ⟨hok, v, hv, i, t, ho, Int.ofNat_lt.2 ht⟩

/-- As many next states above a variable as there are words that are not negative lead to a step
after the last. -/
theorem problem_names_late_step : ∃ (M : Model) (root : Lit) (s' : Encoder),
    let f : Formula := .ahead (.atom (.symbol () "a")) (2 ^ 63)
    (Model.read atNames ∅).1 = .ok M ∧
    problem M.machine f Int64.maxValue .none (fresh M.encoding {}) = (⟨root, none⟩, s') ∧
    ∃ v ∈ s'.encoding.graph.support root, ∃ (i : Nat) (t : UInt64),
      s'.encoding.origins[v.var]? = some (.timed i t) ∧ Int64.maxValue.toInt < t.toNat := by
  obtain ⟨M, hread, hmachine, ha, -⟩ := exists_read_atNames
  obtain ⟨hok, hlate⟩ := problem_ahead_late hread hmachine ha (n := 2 ^ 63) (by omega) (by omega)
  generalize hr : problem M.machine _ Int64.maxValue .none (fresh M.encoding {}) = r at hok hlate
  obtain ⟨⟨root, error?⟩, s'⟩ := r
  obtain rfl : error? = none := hok
  exact ⟨M, root, s', hread, hr, hlate⟩

end Encoder

end Lasso
