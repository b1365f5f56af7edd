import Lasso.Proofs.Bounded.Value

/-! # Encoders that remember

An encoder is well-formed if everything it remembers is bound to an expression with the right
values.  Constructions keep it so, leave the variables alone, and bind only keys that are smaller
than what they encode; so no key is ever bound twice.
-/

namespace Lasso

set_option autoImplicit false

namespace Encoding

theorem accepts_congr {e e' : Encoding} (h : e'.vars = e.vars) (p : Bool) (x : Expr) :
    e'.accepts p x = e.accepts p x := by
  rw [Bool.eq_iff_iff]
  exact ⟨fun hx => (accepts_of_vars (fun _ _ hv => h ▸ hv) x hx).1,
    fun hx => (accepts_of_vars (fun _ _ hv => h ▸ hv) x hx).1⟩

end Encoding

namespace Encoder

open Encoding

/-- The atomic propositions that an encoder can encode. -/
def accepts (s : Encoder) (x : Expr) : Bool := s.encoding.accepts false x

/-- An expression has certain values whenever the atomic propositions are interpreted. -/
def Means (s : Encoder) (l : Lit) (φ : Atoms → View → Bool) : Prop :=
  ∀ p, s.encoding.Interprets p → s.encoding.Denotes l (φ p)

structure WellFormed (s : Encoder) : Prop where
  encoding : s.encoding.WellFormed
  cache : ∀ (key : Key) (l : Lit), s.cache.entries[key]? = some l →
    key.ok s.accepts ∧ s.Means l key.value

/-- One encoder follows another without new variables, and with the same entries for some keys. -/
structure Evolves (keeps : Key → Prop) (s s' : Encoder) : Prop where
  wf : s'.WellFormed
  grows : s.encoding ≤ s'.encoding
  vars : s'.encoding.vars = s.encoding.vars
  keys : ∀ key, keeps key → s'.cache.entries[key]? = s.cache.entries[key]?

/-- One encoder follows another without new variables. -/
abbrev Leads (s s' : Encoder) : Prop := Evolves (fun _ => False) s s'

theorem Evolves.leads {keeps : Key → Prop} {s s' : Encoder} (h : Evolves keeps s s') : s.Leads s' :=
  ⟨h.wf, h.grows, h.vars, nofun⟩

theorem Evolves.refl {keeps : Key → Prop} {s : Encoder} (wf : s.WellFormed) : Evolves keeps s s :=
  ⟨wf, le_refl _, rfl, fun _ _ => rfl⟩

theorem Evolves.trans {keeps : Key → Prop} {s₁ s₂ s₃ : Encoder} (h₁₂ : Evolves keeps s₁ s₂)
    (h₂₃ : Evolves keeps s₂ s₃) : Evolves keeps s₁ s₃ :=
  ⟨h₂₃.wf, le_trans h₁₂.grows h₂₃.grows, h₂₃.vars.trans h₁₂.vars,
    fun key hkey => (h₂₃.keys key hkey).trans (h₁₂.keys key hkey)⟩

theorem Evolves.mono {keeps keeps' : Key → Prop} {s s' : Encoder} (h : Evolves keeps s s')
    (himp : ∀ key, keeps' key → keeps key) : Evolves keeps' s s' :=
  ⟨h.wf, h.grows, h.vars, fun key hkey => h.keys key (himp key hkey)⟩

theorem Evolves.accepts_eq {keeps : Key → Prop} {s s' : Encoder} (h : Evolves keeps s s') :
    s'.accepts = s.accepts :=
  funext fun x => accepts_congr h.vars false x

theorem Means.mem {s : Encoder} {l : Lit} {φ : Atoms → View → Bool} (h : s.Means l φ) :
    l ∈ s.encoding.graph :=
  (h _ s.encoding.interprets_atoms).mem

theorem Means.congr {s : Encoder} {l : Lit} {φ ψ : Atoms → View → Bool} (h : s.Means l φ)
    (heq : ∀ p V, φ p V = ψ p V) : s.Means l ψ :=
  fun p hp => (h p hp).congr (heq p)

theorem Means.not {s : Encoder} {l : Lit} {φ : Atoms → View → Bool} (h : s.Means l φ) :
    s.Means l.not (fun p V => !φ p V) :=
  fun p hp => (h p hp).not

theorem Evolves.means {keeps : Key → Prop} {s s' : Encoder} (wf : s.WellFormed)
    (h : Evolves keeps s s') {l : Lit} {φ : Atoms → View → Bool} (hl : s.Means l φ) :
    s'.Means l φ :=
  fun p hp => (hl p (hp.of_le h.grows)).of_le wf.encoding h.grows

theorem Evolves.mem {keeps : Key → Prop} {s s' : Encoder} (h : Evolves keeps s s') {l : Lit}
    (hl : l ∈ s.encoding.graph) : l ∈ s'.encoding.graph :=
  Graph.mem_of_le (graph_le h.grows) hl

theorem means_truth {s : Encoder} (wf : s.WellFormed) : s.Means Graph.truth (fun _ _ => true) :=
  fun _ _ => denotes_truth wf.encoding

theorem means_falsity {s : Encoder} (wf : s.WellFormed) :
    s.Means Graph.falsity (fun _ _ => false) :=
  fun _ _ => denotes_falsity wf.encoding

theorem onEncoding_eq {α : Type} (m : StateM Encoding α) (s : Encoder) :
    onEncoding m s = ((m s.encoding).1, { s with encoding := (m s.encoding).2 }) := rfl

theorem onTable_eq {α : Type} (m : StateM Table α) (s : Encoder) :
    onTable m s = ((m s.table).1, { s with table := (m s.table).2 }) := rfl

theorem onCache_eq {α : Type} (m : StateM Cache α) (s : Encoder) :
    onCache m s = ((m s.cache).1, { s with cache := (m s.cache).2 }) := rfl

theorem WellFormed.grow {s : Encoder} (wf : s.WellFormed) {e : Encoding} (wfe : e.WellFormed)
    (hle : s.encoding ≤ e) : ({ s with encoding := e } : Encoder).WellFormed where
  encoding := wfe
  cache key l hl := by
    obtain ⟨hok, hdenotes⟩ := wf.cache key l hl
    exact ⟨Key.ok_mono (fun x hx => (accepts_of_vars hle.vars x hx).1) hok,
      fun p hp => (hdenotes p (hp.of_le hle)).of_le wf.encoding hle⟩

theorem WellFormed.evolves {s : Encoder} (wf : s.WellFormed) {e : Encoding} (wfe : e.WellFormed)
    (hle : s.encoding ≤ e) (hvars : e.vars = s.encoding.vars) (keeps : Key → Prop) :
    Evolves keeps s { s with encoding := e } :=
  ⟨wf.grow wfe hle, hle, hvars, fun _ _ => rfl⟩

theorem onEncoding_evolves {s : Encoder} (wf : s.WellFormed) {m : StateM Encoding Lit}
    {φ : View → Bool} (h : s.encoding.Builds (m s.encoding) φ) (keeps : Key → Prop) :
    Evolves keeps s (onEncoding m s).2 :=
  wf.evolves h.wf h.grows h.vars keeps

theorem onTable_evolves {s : Encoder} (wf : s.WellFormed) {α : Type} (m : StateM Table α)
    (keeps : Key → Prop) : Evolves keeps s (onTable m s).2 :=
  ⟨⟨wf.encoding, wf.cache⟩, le_refl _, rfl, fun _ _ => rfl⟩

theorem onGraph_evolves {join : Lit → Lit → StateM Graph Lit} {op : Bool → Bool → Bool}
    (hjoin : Graph.Computes join op) {s : Encoder} (wf : s.WellFormed) {a b : Lit}
    (ha : a ∈ s.encoding.graph) (hb : b ∈ s.encoding.graph) (keeps : Key → Prop) :
    Evolves keeps s (onGraph (join a b) s).2 ∧
      (onGraph (join a b) s).1 ∈ (onGraph (join a b) s).2.encoding.graph := by
  have h := hjoin wf.encoding.graph ha hb
  exact ⟨wf.evolves (wf.encoding.of_graph h.wf h.grows) (le_of_graph_le h.grows) rfl keeps, h.mem⟩

theorem onGraph_means {join : Lit → Lit → StateM Graph Lit} {op : Bool → Bool → Bool}
    (hjoin : Graph.Computes join op) {s : Encoder} (wf : s.WellFormed) {a b : Lit}
    {φ ψ : Atoms → View → Bool} (ha : s.Means a φ) (hb : s.Means b ψ) :
    (onGraph (join a b) s).2.Means (onGraph (join a b) s).1 (fun p V => op (φ p V) (ψ p V)) := by
  intro p hp
  have hle : s.encoding ≤ (onGraph (join a b) s).2.encoding :=
    le_of_graph_le (hjoin wf.encoding.graph ha.mem hb.mem).grows
  exact (onGraph_builds hjoin wf.encoding (ha p (hp.of_le hle)) (hb p (hp.of_le hle))).denotes

end Encoder

end Lasso
