import Lasso.Machine.Condition
import Lasso.Proofs.Machine.NextForm
import Lasso.Proofs.Machine.Timing

/-! # What conditions mean

A condition is a boolean function of the values of the variables now and, beneath the operator for
the next state, one step later.  Which expressions are conditions does not depend on the graph, and
neither that nor their meaning changes when more variables are declared.
-/

namespace Lasso

set_option autoImplicit false

namespace Connective

/-- The value of an operator, which is false for a wrong number of arguments. -/
def apply : Connective → List Bool → Bool
  | .not, [a] => !a
  | .next, [a] => a
  | .xor, [a, b] => a ^^ b
  | .implies, [a, b] => !a || b
  | .iff, [a, b] => a == b
  | .ite, [c, a, b] => bif c then a else b
  | .and, bs => bs.all id
  | .or, bs => bs.any id
  | _, _ => false

/-- Whether an operator takes a number of arguments, where the next state may not be permitted. -/
def takes (permitNext : Bool) : Connective → Nat → Bool
  | .next, n => permitNext && n == 1
  | c, n => c.arity?.elim (n != 0) (n == ·)

end Connective

namespace Encoding

variable {α : Type}

def nameValue (e : Encoding) (a : Letter) : String → Bool
  | "true" | "TRUE" | "1" => true
  | "false" | "FALSE" | "0" => false
  | name => (e.lookup? name).elim false fun x => a x.index

mutual

/-- The value of a condition for given values of the variables now and one step later. -/
def conditionValue (e : Encoding) (now next : Letter) : SExpr α → Bool
  | .symbol _ name => e.nameValue now name
  | .list _ (.symbol _ name :: args) =>
    match Connective.ofName? name with
    | some .next => Connective.next.apply (conditionValues e next next args)
    | some c => c.apply (conditionValues e now next args)
    | none => false
  | .list _ _ => false

def conditionValues (e : Encoding) (now next : Letter) : List (SExpr α) → List Bool
  | [] => []
  | x :: xs => conditionValue e now next x :: conditionValues e now next xs

end

mutual

/-- Whether an expression is built from known names and operators with as many arguments as they
take. -/
def accepts (e : Encoding) (permitNext : Bool) : SExpr α → Bool
  | .symbol _ name => (e.conditionName? name).isSome
  | .list _ (.symbol _ name :: args) =>
    acceptsAll e permitNext args &&
      (Connective.ofName? name).elim false (·.takes permitNext args.length)
  | .list _ _ => false

def acceptsAll (e : Encoding) (permitNext : Bool) : List (SExpr α) → Bool
  | [] => true
  | x :: xs => accepts e permitNext x && acceptsAll e permitNext xs

end

theorem lookup?_of_vars {e e' : Encoding}
    (h : ∀ (i : Nat) (x : Variable), e.vars[i]? = some x → e'.vars[i]? = some x) {name : String}
    {x : Variable} (hx : e.lookup? name = some x) : e'.lookup? name = some x := by
  unfold lookup? at hx ⊢
  rw [Array.find?_eq_some_iff_getElem] at hx ⊢
  obtain ⟨hname, i, hi, hxi, hfirst⟩ := hx
  have hkept : ∀ (j : Nat) (hj : j < e.vars.size), e'.vars[j]? = some e.vars[j] := fun j hj =>
    h j _ (Array.getElem?_eq_getElem hj)
  obtain ⟨hi', hxi'⟩ := Array.getElem?_eq_some_iff.1 (hkept i hi)
  refine ⟨hname, i, hi', hxi'.trans hxi, fun j hji => ?_⟩
  obtain ⟨hj', hxj'⟩ := Array.getElem?_eq_some_iff.1 (hkept j (by omega))
  rw [hxj']
  exact hfirst j hji

theorem conditionName?_cases (name : String) :
    (∃ b, (∀ e' : Encoding, e'.conditionName? name =
        some (bif b then Graph.truth else Graph.falsity)) ∧
      ∀ (e' : Encoding) (a : Letter), e'.nameValue a name = b) ∨
    ((∀ e' : Encoding, e'.conditionName? name = (e'.lookup? name).map (·.current)) ∧
      ∀ (e' : Encoding) (a : Letter),
        e'.nameValue a name = (e'.lookup? name).elim false fun x => a x.index) := by
  by_cases htrue : name = "true" ∨ name = "TRUE" ∨ name = "1"
  · rcases htrue with rfl | rfl | rfl <;> exact .inl ⟨true, fun _ => rfl, fun _ _ => rfl⟩
  by_cases hfalse : name = "false" ∨ name = "FALSE" ∨ name = "0"
  · rcases hfalse with rfl | rfl | rfl <;> exact .inl ⟨false, fun _ => rfl, fun _ _ => rfl⟩
  · refine .inr ⟨fun e' => ?_, fun e' a => ?_⟩
    · unfold conditionName?
      split <;> simp_all
    · unfold nameValue
      split <;> simp_all

theorem nameValue_of_vars {e e' : Encoding}
    (h : ∀ (i : Nat) (x : Variable), e.vars[i]? = some x → e'.vars[i]? = some x) {name : String}
    (hname : (e.conditionName? name).isSome) :
    (e'.conditionName? name).isSome ∧ ∀ a, e'.nameValue a name = e.nameValue a name := by
  rcases conditionName?_cases name with ⟨b, hb, hval⟩ | ⟨hvar, hval⟩
  · exact ⟨by rw [hb]; rfl, fun a => by rw [hval, hval]⟩
  · rw [hvar, Option.isSome_map] at hname
    obtain ⟨x, hx⟩ := Option.isSome_iff_exists.1 hname
    have hx' := lookup?_of_vars h hx
    exact ⟨by simp [hvar, hx'], fun a => by rw [hval, hval, hx, hx']⟩

theorem conditionName?_denotes {e : Encoding} (wf : e.WellFormed) {name : String} {l : Lit}
    (hl : e.conditionName? name = some l) : e.Denotes l (fun V => e.nameValue V.now name) := by
  rcases conditionName?_cases name with ⟨b, hb, hval⟩ | ⟨hvar, hval⟩
  · rw [hb] at hl
    cases hl
    cases b with
    | true => exact (denotes_truth wf).congr fun V => (hval e _).symm
    | false => exact (denotes_falsity wf).congr fun V => (hval e _).symm
  · rw [hvar, Option.map_eq_some_iff] at hl
    obtain ⟨x, hx, rfl⟩ := hl
    obtain ⟨i, hi, hxi⟩ := Array.getElem_of_mem (Array.mem_of_find?_eq_some hx)
    have hxi' : e.vars[i]? = some x := Array.getElem?_eq_some_iff.2 ⟨hi, hxi⟩
    have hpos := Lit.eq_pos_of_negated (wf.positive i x hxi').1
    have ho := (wf.current i x.current.var).2 ⟨x, hxi', hpos⟩
    rw [hpos]
    refine (wf.denotes_origin ho).congr fun V => ?_
    rw [hval, hx, Option.elim_some, wf.index i x hxi']
    rfl

mutual

/-- Declarations change neither what is a condition nor what it means. -/
theorem accepts_of_vars {e e' : Encoding}
    (h : ∀ (i : Nat) (x : Variable), e.vars[i]? = some x → e'.vars[i]? = some x) {p : Bool} :
    (x : SExpr α) → e.accepts p x → e'.accepts p x ∧
      ∀ now next, e'.conditionValue now next x = e.conditionValue now next x
  | .symbol _ name, hx => by
    rw [accepts] at hx
    obtain ⟨hname, hval⟩ := nameValue_of_vars h hx
    refine ⟨by rw [accepts]; exact hname, fun now next => ?_⟩
    rw [conditionValue, conditionValue, hval]
  | .list _ (.symbol _ name :: args), hx => by
    rw [accepts, Bool.and_eq_true] at hx
    obtain ⟨hargs, hval⟩ := acceptsAll_of_vars h args hx.1
    refine ⟨by rw [accepts, hargs, hx.2]; rfl, fun now next => ?_⟩
    rw [conditionValue, conditionValue, hval, hval]
  | .list _ [], hx => by
    rw [accepts.eq_def] at hx
    cases hx
  | .list _ (.list _ _ :: _), hx => by
    rw [accepts.eq_def] at hx
    cases hx

theorem acceptsAll_of_vars {e e' : Encoding}
    (h : ∀ (i : Nat) (x : Variable), e.vars[i]? = some x → e'.vars[i]? = some x) {p : Bool} :
    (xs : List (SExpr α)) → e.acceptsAll p xs → e'.acceptsAll p xs ∧
      ∀ now next, e'.conditionValues now next xs = e.conditionValues now next xs
  | [], _ => ⟨by rw [acceptsAll], fun _ _ => by rw [conditionValues, conditionValues]⟩
  | x :: xs, hx => by
    rw [acceptsAll, Bool.and_eq_true] at hx
    obtain ⟨hfirst, hval⟩ := accepts_of_vars h x hx.1
    obtain ⟨hrest, hvals⟩ := acceptsAll_of_vars h xs hx.2
    refine ⟨by rw [acceptsAll, hfirst, hrest]; rfl, fun now next => ?_⟩
    rw [conditionValues, conditionValues, hval, hvals]

end

mutual

theorem conditionValue_of_vars_eq {e e' : Encoding} (h : e'.vars = e.vars) (now next : Letter) :
    (x : SExpr α) → e'.conditionValue now next x = e.conditionValue now next x
  | .symbol _ name => by
    rw [conditionValue, conditionValue]
    simp only [nameValue, lookup?, h]
  | .list _ (.symbol _ name :: args) => by
    rw [conditionValue, conditionValue, conditionValues_of_vars_eq h now next args,
      conditionValues_of_vars_eq h next next args]
  | .list _ [] => by rw [conditionValue, conditionValue] <;> exact nofun
  | .list _ (.list _ _ :: _) => by rw [conditionValue, conditionValue] <;> exact nofun

theorem conditionValues_of_vars_eq {e e' : Encoding} (h : e'.vars = e.vars) (now next : Letter) :
    (xs : List (SExpr α)) → e'.conditionValues now next xs = e.conditionValues now next xs
  | [] => by rw [conditionValues, conditionValues]
  | x :: xs => by
    rw [conditionValues, conditionValues, conditionValue_of_vars_eq h now next x,
      conditionValues_of_vars_eq h now next xs]

end

mutual

theorem conditionValue_next {e : Encoding} : (x : SExpr α) → e.accepts false x →
    ∀ now next next', e.conditionValue now next x = e.conditionValue now next' x
  | .symbol _ _, _, _, _, _ => by rw [conditionValue, conditionValue]
  | .list _ (.symbol _ name :: args), hx, now, next, next' => by
    rw [accepts, Bool.and_eq_true] at hx
    rw [conditionValue, conditionValue, conditionValues_next args hx.1 now next next']
    cases hname : Connective.ofName? name with
    | none => rfl
    | some c =>
      cases c with
      | next => simp [hname, Connective.takes] at hx
      | _ => rfl
  | .list _ [], hx, _, _, _ => by
    rw [accepts.eq_def] at hx
    cases hx
  | .list _ (.list _ _ :: _), hx, _, _, _ => by
    rw [accepts.eq_def] at hx
    cases hx

theorem conditionValues_next {e : Encoding} : (xs : List (SExpr α)) → e.acceptsAll false xs →
    ∀ now next next', e.conditionValues now next xs = e.conditionValues now next' xs
  | [], _, _, _, _ => by rw [conditionValues, conditionValues]
  | x :: xs, hx, now, next, next' => by
    rw [acceptsAll, Bool.and_eq_true] at hx
    rw [conditionValues, conditionValues, conditionValue_next x hx.1 now next next',
      conditionValues_next xs hx.2 now next next']

end

end Encoding

end Lasso
