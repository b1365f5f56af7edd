import Std.Data.HashMap
import Lasso.Proofs.Formula.Interpretation

/-! # Nodes by number

A formula is referred to by the number of its node.  A node has an operator over the numbers of
other nodes, and a table finds the number of a node by its operator and these numbers, or by the
text of an atomic proposition.  Which number an operation returns is for the look-up to decide: a
node is made only where none is found.
-/

namespace Lasso

set_option autoImplicit false

namespace Formula

/-- What a node is made of.  Operands are given by their numbers. -/
inductive Shape (α : Type) where
  | atom (a : α)
  | unary (op : UnaryOp) (arg : Nat)
  | binary (op : BinaryOp) (left right : Nat)
  deriving DecidableEq, Hashable

namespace Shape

/-- What a node is looked up by. -/
def key : Shape Expr → Shape String
  | .atom e => .atom e.text
  | .unary op k => .unary op k
  | .binary op k l => .binary op k l

def operands {α : Type} : Shape α → List Nat
  | .atom _ => []
  | .unary _ k => [k]
  | .binary _ k l => [k, l]

end Shape

structure Node where
  shape : Shape Expr
  depth : Nat

end Formula

open Formula

/-- Nodes in the order in which they were made, and the number of the node with each key. -/
structure NodeTable where
  nodes : Array Formula.Node
  numbers : Std.HashMap (Shape String) Nat

namespace NodeTable

def empty : NodeTable := ⟨#[], {}⟩

instance : EmptyCollection NodeTable := ⟨empty⟩

def size (s : NodeTable) : Nat := s.numbers.size

def shape? (s : NodeTable) (n : Nat) : Option (Shape Expr) := s.nodes[n]?.map Node.shape

def depth (s : NodeTable) (n : Nat) : Nat := s.nodes[n]?.elim 0 Node.depth

def depthOf (s : NodeTable) : Shape Expr → Nat
  | .atom _ => 0
  | .unary op k => s.depth k + op.isTemporal.toNat
  | .binary op k l => max (s.depth k) (s.depth l) + op.isTemporal.toNat

def push (s : NodeTable) (c : Shape Expr) : NodeTable :=
  ⟨s.nodes.push ⟨c, s.depthOf c⟩, s.numbers.insert c.key s.nodes.size⟩

/-- The number of the node of a shape, which is made if there is none. -/
def add (c : Shape Expr) : StateM NodeTable Nat := fun s =>
  match s.numbers[c.key]? with
  | some n => (n, s)
  | none => (s.nodes.size, s.push c)

def atom (e : Expr) : StateM NodeTable Nat := add (.atom e)

def named (name : String) : StateM NodeTable Nat := atom (.symbol () name)

def make (op : Operator) (left right : Option Nat) :
    StateM NodeTable (Except MakeError Nat) :=
  match op, left, right with
  | .atom, _, _ => return .error .atom
  | op, none, _ => return .error (.missingOperand op)
  | .unary op, some k, none => .ok <$> add (.unary op k)
  | .binary op, some k, some l => .ok <$> add (.binary op k l)
  | op, some _, _ => return .error (.operandCount op)

/-- The formula of a node.  Operands were made before the nodes that they are operands of. -/
def formula? (s : NodeTable) (n : Nat) : Option Formula :=
  match s.shape? n with
  | none => none
  | some (.atom e) => some (.atom e)
  | some (.unary op k) => if _ : k < n then (s.formula? k).map (.unary op) else none
  | some (.binary op k l) =>
    if _ : k < n ∧ l < n then
      (s.formula? k).bind fun f => (s.formula? l).map (.binary op f)
    else none
termination_by n

variable {s s' s'' : NodeTable} {n m : Nat} {f g : Formula} {K L : Finset Formula}

theorem formula?_eq_some_atom_iff {e : Expr} :
    s.formula? n = some (.atom e) ↔ s.shape? n = some (.atom e) := by
  rw [formula?]
  cases s.shape? n with
  | none => simp
  | some c => cases c <;> simp [Option.bind_eq_some_iff]

theorem formula?_eq_some_unary_iff {op : UnaryOp} : s.formula? n = some (.unary op f) ↔
    ∃ k, k < n ∧ s.shape? n = some (.unary op k) ∧ s.formula? k = some f := by
  rw [formula?]
  cases s.shape? n with
  | none => simp
  | some c =>
    cases c with
    | atom e => simp
    | unary op' k => simp [and_left_comm, and_comm]
    | binary op k l => simp [Option.bind_eq_some_iff]

theorem formula?_eq_some_binary_iff {op : BinaryOp} : s.formula? n = some (.binary op f g) ↔
    ∃ k l, k < n ∧ l < n ∧ s.shape? n = some (.binary op k l) ∧ s.formula? k = some f ∧
      s.formula? l = some g := by
  rw [formula?]
  cases s.shape? n with
  | none => simp
  | some c =>
    cases c with
    | atom e => simp
    | unary op' k => simp
    | binary op' k l =>
      simp [Option.bind_eq_some_iff, and_left_comm, and_comm, and_assoc]

theorem shape?_lt {c : Shape Expr} (h : s.shape? n = some c) : n < s.nodes.size := by
  obtain ⟨node, hnode, -⟩ := Option.map_eq_some_iff.1 h
  exact (Array.getElem?_eq_some_iff.1 hnode).1

theorem exists_shape (h : n < s.nodes.size) : ∃ c, s.shape? n = some c :=
  ⟨s.nodes[n].shape, by rw [shape?, Array.getElem?_eq_getElem h]; rfl⟩

theorem formula?_lt (h : s.formula? n = some f) : n < s.nodes.size := by
  cases f with
  | atom e => exact shape?_lt (formula?_eq_some_atom_iff.1 h)
  | unary op f =>
    obtain ⟨k, -, hc, -⟩ := formula?_eq_some_unary_iff.1 h
    exact shape?_lt hc
  | binary op f g =>
    obtain ⟨k, l, -, -, hc, -⟩ := formula?_eq_some_binary_iff.1 h
    exact shape?_lt hc

/-- The formula of a shape over the nodes of a table. -/
def content? (s : NodeTable) : Shape Expr → Option Formula
  | .atom e => some (.atom e)
  | .unary op k => (s.formula? k).map (.unary op)
  | .binary op k l => (s.formula? k).bind fun f => (s.formula? l).map (.binary op f)

theorem content?_eq_some_unary_iff {op : UnaryOp} {k : Nat} :
    s.content? (.unary op k) = some f ↔ ∃ g, s.formula? k = some g ∧ .unary op g = f :=
  Option.map_eq_some_iff

theorem content?_eq_some_binary_iff {op : BinaryOp} {k l : Nat} :
    s.content? (.binary op k l) = some f ↔
      ∃ g h, s.formula? k = some g ∧ s.formula? l = some h ∧ .binary op g h = f := by
  simp [content?, Option.bind_eq_some_iff]

theorem content?_congr {c c' : Shape Expr} (h : c.key = c'.key) :
    (s.content? c).map byText = (s.content? c').map byText := by
  cases c <;> cases c' <;> simp_all [Shape.key, content?, byText]

theorem formula?_of_shape {c : Shape Expr} (hc : s.shape? n = some c)
    (hbelow : ∀ k ∈ c.operands, k < n) : s.formula? n = s.content? c := by
  rw [formula?, hc]
  cases c with
  | atom e => rfl
  | unary op k => exact dif_pos (hbelow k (by simp [Shape.operands]))
  | binary op k l =>
    exact dif_pos ⟨hbelow k (by simp [Shape.operands]), hbelow l (by simp [Shape.operands])⟩

theorem operand_lt {c : Shape Expr} (h : s.content? c = some f) :
    ∀ k ∈ c.operands, k < s.nodes.size := by
  cases c with
  | atom e => simp [Shape.operands]
  | unary op k =>
    obtain ⟨g, hk, -⟩ := content?_eq_some_unary_iff.1 h
    simpa [Shape.operands] using formula?_lt hk
  | binary op k l =>
    obtain ⟨g, g', hk, hl, -⟩ := content?_eq_some_binary_iff.1 h
    simpa [Shape.operands] using ⟨formula?_lt hk, formula?_lt hl⟩

/-- No node is lost or changed. -/
def Keeps (s s' : NodeTable) : Prop :=
  ∀ (n : Nat) (node : Formula.Node), s.nodes[n]? = some node → s'.nodes[n]? = some node

theorem Keeps.refl (s : NodeTable) : s.Keeps s := fun _ _ => id

theorem Keeps.trans (h : s.Keeps s') (h' : s'.Keeps s'') : s.Keeps s'' :=
  fun n node hnode => h' n node (h n node hnode)

theorem Keeps.shape? (h : s.Keeps s') {c : Shape Expr} (hc : s.shape? n = some c) :
    s'.shape? n = some c := by
  obtain ⟨node, hnode, rfl⟩ := Option.map_eq_some_iff.1 hc
  rw [NodeTable.shape?, h n node hnode]
  rfl

theorem Keeps.formula? (h : s.Keeps s') (hf : s.formula? n = some f) :
    s'.formula? n = some f := by
  induction f generalizing n with
  | atom e => exact formula?_eq_some_atom_iff.2 (h.shape? (formula?_eq_some_atom_iff.1 hf))
  | unary op f ih =>
    obtain ⟨k, hk, hc, hf⟩ := formula?_eq_some_unary_iff.1 hf
    exact formula?_eq_some_unary_iff.2 ⟨k, hk, h.shape? hc, ih hf⟩
  | binary op f g ihf ihg =>
    obtain ⟨k, l, hk, hl, hc, hf, hg⟩ := formula?_eq_some_binary_iff.1 hf
    exact formula?_eq_some_binary_iff.2 ⟨k, l, hk, hl, h.shape? hc, ihf hf, ihg hg⟩

theorem Keeps.content? (h : s.Keeps s') {c : Shape Expr} (hc : s.content? c = some f) :
    s'.content? c = some f := by
  cases c with
  | atom e => exact hc
  | unary op k =>
    obtain ⟨g, hk, rfl⟩ := content?_eq_some_unary_iff.1 hc
    exact content?_eq_some_unary_iff.2 ⟨g, h.formula? hk, rfl⟩
  | binary op k l =>
    obtain ⟨g, g', hk, hl, rfl⟩ := content?_eq_some_binary_iff.1 hc
    exact content?_eq_some_binary_iff.2 ⟨g, g', h.formula? hk, h.formula? hl, rfl⟩

/-- A node is found by its key, operands come before what they are operands of, and the depth of a
formula is kept with its node. -/
structure Sound (s : NodeTable) : Prop where
  find_iff : ∀ {key : Shape String} {n : Nat},
    s.numbers[key]? = some n ↔ (s.shape? n).map Shape.key = some key
  below : ∀ {n : Nat} {c : Shape Expr}, s.shape? n = some c → ∀ k ∈ c.operands, k < n
  depth_eq : ∀ {n : Nat} {f : Formula}, s.formula? n = some f → s.depth n = f.depth
  size_eq : s.size = s.nodes.size

theorem sound_empty : (∅ : NodeTable).Sound := by
  have hshape : ∀ n, (∅ : NodeTable).shape? n = none := fun _ => rfl
  refine ⟨?_, ?_, ?_, rfl⟩
  · intro key n
    rw [hshape]
    simp [show (∅ : NodeTable).numbers = ∅ from rfl]
  · intro n c hc
    cases hc
  · intro n f hf
    exact absurd (formula?_lt hf) (Nat.not_lt_zero n)

theorem Sound.formula?_eq (h : s.Sound) {c : Shape Expr} (hc : s.shape? n = some c) :
    s.formula? n = s.content? c :=
  formula?_of_shape hc (h.below hc)

theorem Sound.exists_formula (h : s.Sound) (hn : n < s.nodes.size) :
    ∃ f, s.formula? n = some f := by
  induction n using Nat.strongRecOn with
  | ind n ih =>
    obtain ⟨c, hc⟩ := exists_shape hn
    have hoperand : ∀ k ∈ c.operands, ∃ f, s.formula? k = some f := fun k hk =>
      ih k (h.below hc k hk) ((h.below hc k hk).trans hn)
    rw [h.formula?_eq hc]
    cases c with
    | atom e => exact ⟨_, rfl⟩
    | unary op k =>
      obtain ⟨f, hf⟩ := hoperand k (by simp [Shape.operands])
      exact ⟨_, content?_eq_some_unary_iff.2 ⟨f, hf, rfl⟩⟩
    | binary op k l =>
      obtain ⟨f, hf⟩ := hoperand k (by simp [Shape.operands])
      obtain ⟨g, hg⟩ := hoperand l (by simp [Shape.operands])
      exact ⟨_, content?_eq_some_binary_iff.2 ⟨f, g, hf, hg, rfl⟩⟩

theorem Keeps.formula?_iff (h : s.Keeps s') (hs : s.Sound) (hn : n < s.nodes.size) :
    s'.formula? n = some f ↔ s.formula? n = some f := by
  obtain ⟨g, hg⟩ := hs.exists_formula hn
  rw [hg, h.formula? hg]

theorem Sound.eq_of_key (h : s.Sound) {c c' : Shape Expr} (hm : s.shape? m = some c)
    (hn : s.shape? n = some c') (hkey : c.key = c'.key) : m = n := by
  have hm' : s.numbers[c.key]? = some m := h.find_iff.2 (by rw [hm]; rfl)
  have hn' : s.numbers[c.key]? = some n := h.find_iff.2 (by rw [hn, hkey]; rfl)
  exact Option.some.inj (hm'.symm.trans hn')

/-- A table has one node for each way of writing a formula. -/
theorem Sound.eq_of_byText_eq (h : s.Sound) (hf : s.formula? m = some f)
    (hg : s.formula? n = some g) (htext : g.byText = f.byText) : m = n := by
  induction f generalizing m n g with
  | atom e =>
    obtain ⟨e', rfl, he⟩ := byText_eq_atom_iff.1 htext
    refine h.eq_of_key (formula?_eq_some_atom_iff.1 hf) (formula?_eq_some_atom_iff.1 hg) ?_
    rw [Shape.key, Shape.key, he]
  | unary op f ih =>
    obtain ⟨g, rfl, hgf⟩ := byText_eq_unary_iff.1 htext
    obtain ⟨k, -, hm, hf⟩ := formula?_eq_some_unary_iff.1 hf
    obtain ⟨k', -, hn, hg⟩ := formula?_eq_some_unary_iff.1 hg
    obtain rfl := ih hf hg hgf
    exact h.eq_of_key hm hn rfl
  | binary op f₁ f₂ ih₁ ih₂ =>
    obtain ⟨g₁, g₂, rfl, h₁, h₂⟩ := byText_eq_binary_iff.1 htext
    obtain ⟨k, l, -, -, hm, hk, hl⟩ := formula?_eq_some_binary_iff.1 hf
    obtain ⟨k', l', -, -, hn, hk', hl'⟩ := formula?_eq_some_binary_iff.1 hg
    obtain rfl := ih₁ hk hk' h₁
    obtain rfl := ih₂ hl hl' h₂
    exact h.eq_of_key hm hn rfl

theorem Sound.depthOf_eq (h : s.Sound) {c : Shape Expr} (hc : s.content? c = some f) :
    s.depthOf c = f.depth := by
  cases c with
  | atom e =>
    cases hc
    rfl
  | unary op k =>
    obtain ⟨g, hk, rfl⟩ := content?_eq_some_unary_iff.1 hc
    rw [depthOf, h.depth_eq hk, Formula.depth]
  | binary op k l =>
    obtain ⟨g, g', hk, hl, rfl⟩ := content?_eq_some_binary_iff.1 hc
    rw [depthOf, h.depth_eq hk, h.depth_eq hl, Formula.depth]

theorem shape?_push (s : NodeTable) (c : Shape Expr) (n : Nat) :
    (s.push c).shape? n = if n = s.nodes.size then some c else s.shape? n := by
  simp only [shape?, push, Array.getElem?_push]
  split <;> rfl

theorem keeps_push (s : NodeTable) (c : Shape Expr) : s.Keeps (s.push c) := by
  intro n node hnode
  have hn := (Array.getElem?_eq_some_iff.1 hnode).1
  rw [push, Array.getElem?_push, if_neg hn.ne, hnode]

/-- The formula of the node that is made for a shape. -/
theorem formula?_push {c : Shape Expr} (hc : s.content? c = some f) :
    (s.push c).formula? s.nodes.size = some f := by
  have hshape : (s.push c).shape? s.nodes.size = some c := by rw [shape?_push, if_pos rfl]
  rw [formula?_of_shape hshape (operand_lt hc)]
  exact (keeps_push s c).content? hc

theorem formula?_push_cases (h : s.Sound) {c : Shape Expr} (hc : s.content? c = some f)
    (hg : (s.push c).formula? n = some g) :
    (n = s.nodes.size ∧ g = f) ∨ (n < s.nodes.size ∧ s.formula? n = some g) := by
  have hn := formula?_lt hg
  rw [push, Array.size_push] at hn
  obtain hn | rfl := Nat.lt_succ_iff_lt_or_eq.1 hn
  · exact .inr ⟨hn, ((keeps_push s c).formula?_iff h hn).1 hg⟩
  · rw [formula?_push hc] at hg
    exact .inl ⟨rfl, (Option.some.inj hg).symm⟩

theorem Sound.find_iff_push (h : s.Sound) {c : Shape Expr} (hnew : s.numbers[c.key]? = none)
    {key : Shape String} {n : Nat} :
    (s.push c).numbers[key]? = some n ↔ ((s.push c).shape? n).map Shape.key = some key := by
  have hfind : (s.push c).numbers[key]? =
      if c.key = key then some s.nodes.size else s.numbers[key]? := by
    simp [NodeTable.push, Std.HashMap.getElem?_insert]
  rw [hfind, shape?_push]
  obtain rfl | hn := eq_or_ne n s.nodes.size
  · rw [if_pos rfl]
    constructor
    · intro hkey
      split at hkey
      · rename_i heq
        rw [Option.map_some, heq]
      · obtain ⟨c', hc', -⟩ := Option.map_eq_some_iff.1 (h.find_iff.1 hkey)
        exact absurd (shape?_lt hc') (Nat.lt_irrefl _)
    · intro hkey
      exact if_pos (Option.some.inj hkey)
  · rw [if_neg hn, ← h.find_iff]
    split
    · rename_i heq
      rw [← heq, hnew]
      simpa using hn.symm
    · rfl

theorem Sound.push (h : s.Sound) {c : Shape Expr} (hc : s.content? c = some f)
    (hnew : s.numbers[c.key]? = none) : (s.push c).Sound where
  find_iff := h.find_iff_push hnew
  below := by
    intro n c' hc' k hk
    rw [shape?_push] at hc'
    split at hc'
    · rename_i hn
      cases hc'
      rw [hn]
      exact operand_lt hc k hk
    · exact h.below hc' k hk
  depth_eq := by
    intro n g hg
    obtain ⟨rfl, rfl⟩ | ⟨hn, hg⟩ := formula?_push_cases h hc hg
    · rw [← h.depthOf_eq hc]
      simp [depth, NodeTable.push]
    · rw [← h.depth_eq hg]
      simp [depth, NodeTable.push, Array.getElem?_push, hn.ne]
  size_eq := by
    have hnotMem : c.key ∉ s.numbers := by simpa using hnew
    have hsize := h.size_eq
    simp only [size] at hsize
    simp [size, NodeTable.push, Std.HashMap.size_insert, hnotMem, hsize]

/-- A node is written like a formula. -/
def Writes (s : NodeTable) (n : Nat) (f : Formula) : Prop :=
  ∃ g, s.formula? n = some g ∧ g.byText = f.byText

theorem Writes.congr (h : s.Writes n f) (hfg : f.byText = g.byText) : s.Writes n g := by
  obtain ⟨k, hk, hkf⟩ := h
  exact ⟨k, hk, hkf.trans hfg⟩

theorem Writes.keeps (h : s.Writes n f) (hs : s.Keeps s') : s'.Writes n f := by
  obtain ⟨g, hg, hgf⟩ := h
  exact ⟨g, hs.formula? hg, hgf⟩

theorem Writes.byText_eq (h : s.Writes n f) (h' : s.Writes n g) : f.byText = g.byText := by
  obtain ⟨k, hk, hkf⟩ := h
  obtain ⟨k', hk', hkg⟩ := h'
  rw [hk, Option.some.injEq] at hk'
  rw [← hkf, hk', hkg]

theorem Writes.unique (hs : s.Sound) (h : s.Writes m f) (h' : s.Writes n f) : m = n := by
  obtain ⟨g, hg, hgf⟩ := h
  obtain ⟨g', hg', hgf'⟩ := h'
  exact hs.eq_of_byText_eq hg hg' (hgf'.trans hgf.symm)

theorem Writes.content_unary (h : s.Writes n f) (op : UnaryOp) :
    ∃ g, s.content? (.unary op n) = some g ∧ g.byText = (unary op f).byText := by
  obtain ⟨g, hg, hgf⟩ := h
  exact ⟨_, content?_eq_some_unary_iff.2 ⟨g, hg, rfl⟩, by simp only [byText, hgf]⟩

theorem Writes.content_binary (h : s.Writes m f) (h' : s.Writes n g) (op : BinaryOp) :
    ∃ k, s.content? (.binary op m n) = some k ∧ k.byText = (binary op f g).byText := by
  obtain ⟨k, hk, hkf⟩ := h
  obtain ⟨l, hl, hlg⟩ := h'
  exact ⟨_, content?_eq_some_binary_iff.2 ⟨k, l, hk, hl, rfl⟩, by simp only [byText, hkf, hlg]⟩

/-- Nodes for some formulas of a set are added, and none is lost. -/
structure Adds (K : Finset Formula) (s s' : NodeTable) : Prop where
  sound : s'.Sound
  keeps : s.Keeps s'
  new : ∀ {n : Nat} {f : Formula}, s'.formula? n = some f → s.formula? n = some f ∨ f.byText ∈ K

theorem Sound.adds_self (h : s.Sound) (K : Finset Formula) : Adds K s s :=
  ⟨h, .refl s, .inl⟩

theorem Adds.mono (h : Adds K s s') (hsub : K ⊆ L) : Adds L s s' :=
  ⟨h.sound, h.keeps, fun hf => (h.new hf).imp_right (hsub ·)⟩

theorem Adds.trans (h : Adds K s s') (h' : Adds K s' s'') : Adds K s s'' :=
  ⟨h'.sound, h.keeps.trans h'.keeps, fun hf => (h'.new hf).elim h.new .inr⟩

/-- Making a formula adds nodes for what is missing of it, and returns the number of the node that
is written like it. -/
structure Makes (s : NodeTable) (f : Formula) (r : Nat × NodeTable) : Prop where
  adds : Adds f.keys s r.2
  writes : r.2.Writes r.1 f

/-- What is found for a shape is the node with its formula, and if none is found there is none. -/
theorem add_makes (h : s.Sound) {c : Shape Expr} (hc : s.content? c = some g)
    (hgf : g.byText = f.byText) : Makes s f (add c s) := by
  rw [add]
  cases hfind : s.numbers[c.key]? with
  | some n =>
    obtain ⟨c', hc', hkey⟩ := Option.map_eq_some_iff.1 (h.find_iff.1 hfind)
    have hcongr := content?_congr (s := s) hkey
    rw [hc, ← h.formula?_eq hc'] at hcongr
    obtain ⟨g', hg', htext⟩ := Option.map_eq_some_iff.1 hcongr
    exact ⟨h.adds_self _, g', hg', htext.trans hgf⟩
  | none =>
    refine ⟨⟨h.push hc hfind, keeps_push s c, ?_⟩, g, formula?_push hc, hgf⟩
    intro n k hk
    obtain ⟨-, rfl⟩ | ⟨-, hk⟩ := formula?_push_cases h hc hk
    · rw [hgf]
      exact .inr (byText_mem_keys f)
    · exact .inl hk

theorem atom_makes (h : s.Sound) (e : Expr) : Makes s (.atom e) (atom e s) := add_makes h rfl rfl

theorem add_unary_makes (h : s.Sound) (op : UnaryOp) (hf : s.Writes n f) :
    Makes s (.unary op f) (add (.unary op n) s) := by
  obtain ⟨g, hg, htext⟩ := hf.content_unary op
  exact add_makes h hg htext

theorem add_binary_makes (h : s.Sound) (op : BinaryOp) (hf : s.Writes m f) (hg : s.Writes n g) :
    Makes s (.binary op f g) (add (.binary op m n) s) := by
  obtain ⟨k, hk, htext⟩ := hf.content_binary hg op
  exact add_makes h hk htext

theorem Writes.of_mem_preorder (h : s.Writes n f) (hg : g ∈ f.preorder) : ∃ m, s.Writes m g := by
  have hpart : ∀ k, (∃ m, s.formula? m = some k) →
      ∀ l ∈ k.preorder, ∃ m, s.formula? m = some l := by
    intro k hk
    refine forall_mem_preorder (p := fun k => ∃ m, s.formula? m = some k) ?_ ?_ hk
    · rintro op k ⟨m, hm⟩
      obtain ⟨i, -, -, hi⟩ := formula?_eq_some_unary_iff.1 hm
      exact ⟨i, hi⟩
    · rintro op k l ⟨m, hm⟩
      obtain ⟨i, j, -, -, -, hi, hj⟩ := formula?_eq_some_binary_iff.1 hm
      exact ⟨⟨i, hi⟩, j, hj⟩
  obtain ⟨k, hk, hkf⟩ := h
  have hkey : g.byText ∈ k.keys := by
    rw [keys_congr hkf]
    exact mem_keys_iff.2 ⟨g, hg, rfl⟩
  obtain ⟨l, hl, hlg⟩ := mem_keys_iff.1 hkey
  obtain ⟨m, hm⟩ := hpart k ⟨n, hk⟩ l hl
  exact ⟨m, l, hm, hlg⟩

/-- The formulas of the nodes are those of a set, up to the text of atomic propositions. -/
structure Records (s : NodeTable) (S : Finset Formula) : Prop where
  sound : s.Sound
  mem_iff : ∀ k, k ∈ S ↔ ∃ n f, s.formula? n = some f ∧ f.byText = k

theorem records_empty : (∅ : NodeTable).Records ∅ := by
  refine ⟨sound_empty, fun k => ?_⟩
  simp only [Finset.notMem_empty, false_iff, not_exists, not_and]
  intro n f hf
  exact absurd (formula?_lt hf) (Nat.not_lt_zero n)

theorem Records.size_eq {S : Finset Formula} (h : s.Records S) : s.size = S.card := by
  choose form hform using fun (n : Nat) (hn : n < s.nodes.size) => h.sound.exists_formula hn
  rw [h.sound.size_eq, eq_comm]
  refine Finset.card_eq_of_bijective (fun n hn => (form n hn).byText) ?_ ?_ ?_
  · intro k hk
    obtain ⟨n, f, hf, rfl⟩ := (h.mem_iff k).1 hk
    have hn := formula?_lt hf
    exact ⟨n, hn, congrArg byText (Option.some.inj ((hform n hn).symm.trans hf))⟩
  · exact fun n hn => (h.mem_iff _).2 ⟨n, _, hform n hn, rfl⟩
  · exact fun m n hm hn htext => h.sound.eq_of_byText_eq (hform m hm) (hform n hn) htext.symm

/-- Some formulas have nodes in a table, as everything beneath them. -/
structure Enters (s : NodeTable) (fs : List Formula) (s' : NodeTable) : Prop where
  adds : Adds (allKeys fs) s s'
  writes : ∀ f ∈ fs, ∃ n, s'.Writes n f

theorem Sound.enters_self (h : s.Sound) : Enters s [] s := ⟨h.adds_self _, by simp⟩

theorem Makes.enters {r : Nat × NodeTable} (h : Makes s f r) : Enters s [f] r.2 := by
  refine ⟨h.adds.mono (keys_subset_allKeys (by simp)), ?_⟩
  simpa using ⟨r.1, h.writes⟩

theorem Enters.append {fs gs : List Formula} (h : Enters s fs s') (h' : Enters s' gs s'') :
    Enters s (fs ++ gs) s'' := by
  refine ⟨(h.adds.mono (allKeys_mono (by simp))).trans (h'.adds.mono (allKeys_mono (by simp))), ?_⟩
  intro f hf
  obtain hf | hf := List.mem_append.1 hf
  · obtain ⟨n, hn⟩ := h.writes f hf
    exact ⟨n, hn.keeps h'.adds.keeps⟩
  · exact h'.writes f hf

theorem Enters.records {S : Finset Formula} {fs : List Formula} (h : Enters s fs s')
    (hS : s.Records S) : s'.Records (S ∪ allKeys fs) := by
  refine ⟨h.adds.sound, fun k => ?_⟩
  rw [Finset.mem_union, hS.mem_iff]
  constructor
  · rintro (⟨n, f, hf, rfl⟩ | hk)
    · exact ⟨n, f, h.adds.keeps.formula? hf, rfl⟩
    · obtain ⟨f, hf, hk⟩ := mem_allKeys_iff.1 hk
      obtain ⟨g, hg, rfl⟩ := mem_keys_iff.1 hk
      obtain ⟨n, hn⟩ := h.writes f hf
      exact hn.of_mem_preorder hg
  · rintro ⟨n, f, hf, rfl⟩
    exact (h.adds.new hf).imp_left fun hf => ⟨n, f, hf, rfl⟩

/-- Whoever asks for a formula is given a node that is written like it. -/
def Answers (s : NodeTable) : Option Formula → Option Nat → Prop
  | some f, some n => s.Writes n f
  | none, none => True
  | _, _ => False

end NodeTable

end Lasso
