-- What all answers of a reader have in common. A reader of a table keeps what its visits keep,
-- and fields and methods are read alike.
import Mathlib.Algebra.GroupWithZero.Nat
import ClassAtlas.Descriptor.Decode
import ClassAtlas.Proofs.Descriptor.Reading

namespace ClassAtlas

namespace Decoder

/-- All answers of a reader have a property. -/
def Gives {α : Type} (reader : Decoder α) (P : α → Prop) : Prop :=
  ∀ c a c', reader c = .ok a c' → P a

variable {α β : Type} {P : α → Prop}

theorem gives_pure {a : α} (h : P a) : Gives (pure a) P := by
  rintro c b c' ⟨⟩
  exact h

theorem gives_throw (fault : DescriptorFault) : Gives (throw fault : Decoder α) P := by
  rintro c a c' ⟨⟩

theorem Gives.mono {Q : α → Prop} {reader : Decoder α} (h : Gives reader Q) (himp : ∀ a, Q a → P a) :
    Gives reader P := fun c a c' hok => himp a (h c a c' hok)

theorem Gives.bind {Q : β → Prop} {reader : Decoder β} {next : β → Decoder α}
    (h : Gives reader Q) (hnext : ∀ b, Q b → Gives (next b) P) : Gives (reader >>= next) P := by
  intro c a c' hok
  obtain ⟨b, c₁, hfirst, hsecond⟩ := bind_eq_ok hok
  exact hnext b (h c b c₁ hfirst) c₁ a c' hsecond

theorem gives_any (reader : Decoder α) : Gives reader fun _ => True := fun _ _ _ _ => trivial

/-- What follows a step decides, whatever the step answers. -/
theorem gives_bind {reader : Decoder β} {next : β → Decoder α} (hnext : ∀ b, Gives (next b) P) :
    Gives (reader >>= next) P :=
  (gives_any reader).bind fun b _ => hnext b

/-- The last step of a reader: what was read is put into its place. -/
theorem Gives.bind_pure {reader : Decoder β} {put : β → α} (h : Gives reader fun b => P (put b)) :
    Gives (reader >>= fun b => pure (put b)) P := h.bind fun _ hb => gives_pure hb

theorem Gives.map {reader : Decoder β} {put : β → α} (h : Gives reader fun b => P (put b)) :
    Gives (put <$> reader) P := by
  rw [map_eq_pure_bind]
  exact h.bind_pure

theorem Gives.refuse {p : Prop} [Decidable p] {fault : DescriptorFault} {next : Unit → Decoder α}
    (h : ¬ p → Gives (next ()) P) :
    Gives (if p then throw fault >>= next else next ()) P := by
  intro c a c' hok
  obtain ⟨hp, hnext⟩ := refuse_eq_ok hok
  exact h hp c a c' hnext

theorem gives_ofExcept (answer : Except DescriptorFault α) :
    Gives (ofExcept answer) fun a => answer = .ok a := by
  cases answer with
  | error fault => exact gives_throw fault
  | ok a => exact gives_pure rfl

theorem gives_lookUp (look : UInt16 → Except DescriptorFault α) :
    Gives (lookUp look) fun a => ∃ index, look index = .ok a :=
  gives_bind fun index => (gives_ofExcept (look index)).mono fun _ hlook => ⟨index, hlook⟩

theorem Gives.times {reader : Decoder α} (h : Gives reader P) (n : Nat) :
    Gives (times n reader) fun items => ∀ a ∈ items, P a := by
  induction n with
  | zero => exact gives_pure (by simp)
  | succ n ih =>
    refine h.bind fun a ha => ih.bind fun items hitems => gives_pure ?_
    exact List.forall_mem_cons.mpr ⟨ha, hitems⟩

theorem Gives.counted {reader : Decoder α} (h : Gives reader P) :
    Gives (counted reader) fun items => ∀ a ∈ items, P a :=
  gives_bind fun count => h.times count.toNat

theorem Gives.run {reader : Decoder α} (h : Gives reader P) {bytes : Bytes} {a : α}
    (hrun : run reader bytes = .ok a) : P a := by
  obtain ⟨c, hread⟩ := run_eq_ok hrun
  exact h _ a c hread

theorem Gives.within {reader : Decoder α} (h : Gives reader P) (bytes : Bytes) :
    Gives (within bytes reader) P := fun _ _ _ hok => h.run (within_eq_ok hok).1

end Decoder

/-! ## Tables of attributes -/

namespace Descriptor

open Decoder

theorem gives_attributes {σ : Type} {P : σ → Prop} {pool : ConstantPool}
    {visit : String → σ → Decoder σ} (hvisit : ∀ name known, P known → Gives (visit name known) P)
    (count : Nat) {known : σ} (h : P known) : Gives (attributes pool visit count known) P := by
  induction count generalizing known with
  | zero => exact gives_pure h
  | succ count ih =>
    refine gives_bind fun _ => gives_bind fun _ => gives_bind fun name => gives_bind fun body => ?_
    exact ((hvisit name known h).within body).bind fun known' h' => ih h'

theorem gives_attributeTable {σ : Type} {P : σ → Prop} {pool : ConstantPool}
    {visit : String → σ → Decoder σ} (hvisit : ∀ name known, P known → Gives (visit name known) P)
    {known : σ} (h : P known) : Gives (attributeTable pool visit known) P :=
  gives_bind fun count => gives_attributes hvisit count.toNat h

/-! ## Members -/

/-- A member is read as what is known of it before its attributes, changed by them, and put
together at the end. -/
def member {σ μ : Type} (pool : ConstantPool) (visit : String → σ → Decoder σ)
    (bare : UInt16 → String → String → σ) (put : String → String → σ → μ) : Decoder μ := do
  let access ← u2
  let name ← lookUp pool.text
  let descriptor ← lookUp pool.text
  let known ← attributeTable pool visit (bare access name descriptor)
  return put name descriptor known

/-- A field with its signature parsed. -/
def finishField (name _ : String) (f : FieldRecord) : FieldRecord × List SignatureIssue :=
  let (s, issues) := parsed ValueType.parse s!"field {name}" f.signature
  ({ f with parsedSignature := s }, issues)

/-- A method with its signature parsed. -/
def finishMethod (name descriptor : String) (m : MethodRecord) :
    MethodRecord × List SignatureIssue :=
  let (s, issues) := parsed MethodSignature.parse s!"method {name}{descriptor}" m.signature
  ({ m with parsedSignature := s }, issues)

variable (options : DecodeOptions) (pool : ConstantPool)

theorem field_eq_member :
    field options pool = member pool (fieldAttribute options pool) bareField finishField := rfl

theorem method_eq_member :
    method options pool = member pool (methodAttribute options pool) bareMethod finishMethod := rfl

end Descriptor

end ClassAtlas
