-- Writers that add constants to a pool. A writer is judged by what a reader makes of its
-- bytes with any finished pool that holds the constants written so far; since a pool only
-- grows, what is right after one writer stays right after all that follow.
import ClassAtlas.Proofs.Descriptor.Pool

namespace ClassAtlas

namespace PoolBuilder

/-! ## Growth -/

/-- What interning does: the constant is there, or it gets the next number. -/
theorem intern_cases (c : Constant) (p : PoolBuilder) :
    (∃ i, (c, i) ∈ p.entries ∧ intern c p = (i, p)) ∨
      (c ∉ p.constants ∧
        intern c p = (p.next, ⟨p.entries ++ [(c, p.next)], p.next + UInt16.ofNat c.slots⟩)) := by
  unfold intern
  split
  · rename_i d i hfind
    have hd : d = c := by simpa using List.find?_some hfind
    subst hd
    exact Or.inl ⟨i, List.mem_of_find?_eq_some hfind, rfl⟩
  · rename_i hfind
    refine Or.inr ⟨?_, rfl⟩
    intro hmem
    obtain ⟨e, he, rfl⟩ := List.mem_map.mp hmem
    simpa using List.find?_eq_none.mp hfind e he

theorem constants_intern (c : Constant) (p : PoolBuilder) :
    c ∈ p.constants ∧ (intern c p).2.constants = p.constants ∨
      c ∉ p.constants ∧ (intern c p).2.constants = p.constants ++ [c] := by
  rcases intern_cases c p with ⟨i, hmem, heq⟩ | ⟨hnew, heq⟩
  · exact Or.inl ⟨List.mem_map_of_mem hmem, by rw [heq]⟩
  · exact Or.inr ⟨hnew, by simp [heq, constants]⟩

theorem mem_intern (c : Constant) (p : PoolBuilder) :
    (c, (intern c p).1) ∈ (intern c p).2.entries := by
  rcases intern_cases c p with ⟨i, hmem, heq⟩ | ⟨_, heq⟩
  · rw [heq]
    exact hmem
  · rw [heq]
    simp

theorem subset_intern (c : Constant) (p : PoolBuilder) : p.entries ⊆ (intern c p).2.entries := by
  rcases intern_cases c p with ⟨i, _, heq⟩ | ⟨_, heq⟩
  · rw [heq]
    exact List.Subset.refl _
  · rw [heq]
    exact List.subset_append_left _ _

/-- A pool `p` becomes `q` by interning constants that fit. The texts are those of the class
constants asked for, in order. -/
inductive Grows : PoolBuilder → List String → PoolBuilder → Prop
  | refl (p : PoolBuilder) : Grows p [] p
  | other {p q : PoolBuilder} {texts : List String} {c : Constant} :
      Grows p texts q → c.Fits → (∀ i, c ≠ .classRef i) → Grows p texts (intern c q).2
  | classRef {p q : PoolBuilder} {texts : List String} {text : String} {i : UInt16} :
      Grows p texts q → (.text text, i) ∈ q.entries →
      Grows p (texts ++ [text]) (intern (.classRef i) q).2

theorem Grows.trans {p q r : PoolBuilder} {texts more : List String} (hpq : Grows p texts q)
    (hqr : Grows q more r) : Grows p (texts ++ more) r := by
  induction hqr with
  | refl => rwa [List.append_nil]
  | other _ hfits hno ih => exact ih.other hfits hno
  | classRef _ hmem ih =>
    rw [← List.append_assoc]
    exact ih.classRef hmem

theorem Grows.subset {p q : PoolBuilder} {texts : List String} (h : Grows p texts q) :
    p.entries ⊆ q.entries := by
  induction h with
  | refl => exact List.Subset.refl _
  | other _ _ _ ih => exact List.Subset.trans ih (subset_intern _ _)
  | classRef _ _ ih => exact List.Subset.trans ih (subset_intern _ _)

/-! ## Numbers in a growing pool -/

/-- The constants are numbered one after the other, and each can be written. -/
structure Sound (p : PoolBuilder) : Prop where
  entries_eq : p.entries = numbered 1 p.constants
  next_eq : p.next = UInt16.ofNat (1 + slotsOf p.constants)
  fits : ∀ c ∈ p.constants, c.Fits

theorem sound_empty : Sound empty := ⟨rfl, rfl, by simp [constants, empty]⟩

theorem Sound.intern {p : PoolBuilder} (h : p.Sound) {c : Constant} (hc : c.Fits) :
    (PoolBuilder.intern c p).2.Sound := by
  rcases intern_cases c p with ⟨i, _, heq⟩ | ⟨_, heq⟩
  · rw [heq]
    exact h
  · rw [heq]
    obtain ⟨hentries, hnext, hfits⟩ := h
    have hconstants : constants ⟨p.entries ++ [(c, p.next)], p.next + UInt16.ofNat c.slots⟩ =
        p.constants ++ [c] := by simp [constants]
    refine ⟨?_, ?_, ?_⟩
    · rw [hconstants, numbered_append, ← hentries]
      simp [numbered, hnext]
    · rw [hconstants, slotsOf_append, ← Nat.add_assoc, UInt16.ofNat_add, ← hnext]
      simp
    · rw [hconstants]
      intro d hd
      rcases List.mem_append.mp hd with hd | hd
      · exact hfits d hd
      · rw [List.mem_singleton.mp hd]
        exact hc

theorem Grows.sound {p q : PoolBuilder} {texts : List String} (h : Grows p texts q)
    (hp : p.Sound) : q.Sound := by
  induction h with
  | refl => exact hp
  | other _ hfits _ ih => exact ih.intern hfits
  | classRef _ _ ih => exact ih.intern trivial

/-- The finished pool finds the constants under the numbers that the writer gave them. -/
def Held (p : PoolBuilder) (pool : ConstantPool) : Prop :=
  ∀ c i, (c, i) ∈ p.entries → pool.get i = .ok c

theorem Sound.held {p : PoolBuilder} (h : p.Sound) (hslots : slotsOf p.constants ≤ 65534) :
    p.Held (ConstantPool.ofConstants p.constants) := by
  intro c i hmem
  rw [h.entries_eq] at hmem
  exact ConstantPool.get_ofConstants hmem hslots

theorem Grows.held {p q : PoolBuilder} {texts : List String} {pool : ConstantPool}
    (h : Grows p texts q) (hq : q.Held pool) : p.Held pool :=
  fun c i hmem => hq c i (h.subset hmem)

/-- The bytes of a sound pool behind the number of its entries read back as that pool. -/
theorem Sound.reads {p : PoolBuilder} (h : p.Sound) (hslots : slotsOf p.constants ≤ 65534) :
    Decoder.Reads ConstantPool.decode (BigEndian.word16 p.next ++ p.bytes)
      (ConstantPool.ofConstants p.constants) := by
  have hbytes : p.bytes = p.constants.flatMap Constant.encode := by
    simp [bytes, constants, List.flatMap_map]
  rw [hbytes, h.next_eq]
  exact ConstantPool.reads_ofConstants h.fits hslots

/-! ## What a writer yields -/

variable {α β γ : Type}

/-- From every pool the writer lets the pool grow by the class constants of `texts`, and its
answer is right with every finished pool that holds what was written. -/
def Yields (writer : Writer β) (texts : List String) (right : ConstantPool → β → Prop) : Prop :=
  ∀ p, Grows p texts (writer p).2 ∧ ∀ pool, (writer p).2.Held pool → right pool (writer p).1

theorem yields_pure {right : ConstantPool → β → Prop} {b : β} (h : ∀ pool, right pool b) :
    Yields (pure b) [] right := fun p => ⟨.refl p, fun pool _ => h pool⟩

/-- What the first writer got right may be used for the second one, since the pool that holds
the constants of both holds those of the first. -/
theorem Yields.bind {writer : Writer β} {next : β → Writer γ} {texts more : List String}
    {first : ConstantPool → β → Prop} {right : ConstantPool → γ → Prop}
    (hwriter : Yields writer texts first)
    (hnext : ∀ b, Yields (next b) more fun pool c => first pool b → right pool c) :
    Yields (writer >>= next) (texts ++ more) right := by
  intro p
  obtain ⟨hgrows, hfirst⟩ := hwriter p
  obtain ⟨hgrows', hright⟩ := hnext (writer p).1 (writer p).2
  exact ⟨hgrows.trans hgrows', fun pool hheld =>
    hright pool hheld (hfirst pool (hgrows'.held hheld))⟩

theorem Yields.mono {writer : Writer β} {texts : List String}
    {first right : ConstantPool → β → Prop} (h : Yields writer texts first)
    (himp : ∀ pool b, first pool b → right pool b) : Yields writer texts right :=
  fun p => ⟨(h p).1, fun pool hheld => himp pool _ ((h p).2 pool hheld)⟩

/-- The last step of a writer: what was written is put together. -/
theorem Yields.bind_pure {writer : Writer β} {put : β → γ} {texts : List String}
    {right : ConstantPool → γ → Prop} (h : Yields writer texts fun pool b => right pool (put b)) :
    Yields (writer >>= fun b => pure (put b)) texts right := fun p => h p

/-! ## The numbers of constants -/

theorem yields_intern {c : Constant} (hfits : c.Fits) (hno : ∀ i, c ≠ .classRef i) :
    Yields (intern c) [] fun pool i => pool.get i = .ok c :=
  fun p => ⟨(Grows.refl p).other hfits hno, fun _ hheld => hheld _ _ (mem_intern c p)⟩

theorem pick_of_get {pool : ConstantPool} {i : UInt16} {c : Constant} {a : α} {expected : String}
    {view : Constant → Option α} (hget : pool.get i = .ok c) (hview : view c = some a) :
    pool.pick expected view i = .ok a := by
  simp only [ConstantPool.pick, hget, bind, Except.bind, hview]
  rfl

theorem yields_text {value : String} (h : TextFits value) :
    Yields (text value) [] fun pool i => pool.text i = .ok value :=
  (yields_intern (c := .text value) h (by simp)).mono fun _ _ hget => pick_of_get hget rfl

theorem className_of_get {pool : ConstantPool} {i n : UInt16} {name : String}
    (hclass : pool.get i = .ok (.classRef n)) (hname : pool.text n = .ok name) :
    pool.className i = .ok name := by
  rw [ConstantPool.className, pick_of_get (a := n) hclass]
  · exact hname
  · rfl

theorem yields_classRef {name : String} (h : ClassNameFits name) :
    Yields (classRef name) [Name.slashed name]
      fun pool i => pool.className i = .ok (Name.slashed name) := by
  intro p
  have htext := mem_intern (.text (Name.slashed name)) p
  have hgrows := (Grows.refl p).other (c := .text (Name.slashed name)) h.short (by simp)
  have hwriter : classRef name p = intern (.classRef (intern (.text (Name.slashed name)) p).1)
      (intern (.text (Name.slashed name)) p).2 := rfl
  rw [hwriter]
  refine ⟨hgrows.classRef htext, ?_⟩
  intro pool hheld
  exact className_of_get (hheld _ _ (mem_intern _ _))
    (pick_of_get (hheld _ _ (subset_intern _ _ htext)) rfl)

/-- No constant has the number zero. -/
theorem ne_zero_of_pick {pool : ConstantPool} {i : UInt16} {a : α} {expected : String}
    {view : Constant → Option α} (h : pool.pick expected view i = .ok a) : i ≠ 0 := by
  rintro rfl
  simp [ConstantPool.pick, ConstantPool.get, bind, Except.bind] at h

theorem optionally_of_ne_zero {look : UInt16 → Except DescriptorFault α} {i : UInt16} {a : α}
    (hi : i ≠ 0) (h : look i = .ok a) : ConstantPool.optionally look i = .ok (some a) := by
  rw [ConstantPool.optionally, if_neg hi, h]
  rfl

theorem className_ne_zero {pool : ConstantPool} {i : UInt16} {name : String}
    (h : pool.className i = .ok name) : i ≠ 0 := by
  rintro rfl
  simp [ConstantPool.className, ConstantPool.pick, ConstantPool.get, bind, Except.bind] at h

theorem yields_optionalClass {name : Option String} (h : ∀ n ∈ name, ClassNameFits n) :
    Yields (optionalClass name) (name.toList.map Name.slashed) fun pool i =>
      ConstantPool.optionally pool.className i = .ok (name.map Name.slashed) := by
  cases name with
  | none => exact yields_pure fun _ => rfl
  | some n =>
    exact (yields_classRef (h n rfl)).mono fun _ _ hclass =>
      optionally_of_ne_zero (className_ne_zero hclass) hclass

theorem yields_optionalText {value : Option String} (h : ∀ t ∈ value, TextFits t) :
    Yields (optionalText value) [] fun pool i =>
      ConstantPool.optionally pool.text i = .ok value := by
  cases value with
  | none => exact yields_pure fun _ => rfl
  | some t =>
    exact (yields_text (h t rfl)).mono fun _ _ htext =>
      optionally_of_ne_zero (ne_zero_of_pick htext) htext

theorem yields_constantValue {value : ConstantValue} (h : value.Fits) :
    Yields (constantValue value) [] fun pool i =>
      Descriptor.constantValue pool i = .ok value := by
  cases value with
  | string t =>
    have hstring : ∀ index, Yields (intern (.string index)) [] fun pool i =>
        pool.text index = .ok t → Descriptor.constantValue pool i = .ok (.string t) := by
      intro index
      refine Yields.mono (yields_intern trivial (by simp)) fun pool i hget htext => ?_
      simp only [Descriptor.constantValue, hget, htext, bind, Except.bind]
      rfl
    exact (yields_text h).bind hstring
  | int n | long n | float n | double n =>
    refine Yields.mono (yields_intern trivial (by simp)) fun pool i hget => ?_
    simp only [Descriptor.constantValue, hget, bind, Except.bind]
    rfl

/-! ## Lists of items -/

open Decoder (Reads)

variable {write : α → Writer Bytes} {texts : α → List String}
  {reader : ConstantPool → Decoder β} {view : α → β} {items : List α}

theorem yields_writeEach
    (h : ∀ a ∈ items, Yields (write a) (texts a) fun pool bytes => Reads (reader pool) bytes (view a)) :
    Yields (Descriptor.writeEach write items) (items.flatMap texts) fun pool bytes =>
      Reads (Decoder.times items.length (reader pool)) bytes (items.map view) := by
  induction items with
  | nil => exact yields_pure fun pool => Decoder.reads_times_zero _
  | cons a rest ih =>
    have hrest := ih fun b hb => h b (by simp [hb])
    refine (h a (by simp)).bind fun front => ?_
    refine (hrest.mono fun pool back hback hfront => ?_).bind_pure
    exact Decoder.reads_times_succ hfront hback

/-- Items without class constants that are read back as they are. -/
theorem yields_writeEach_same {reader : ConstantPool → Decoder α}
    (h : ∀ a ∈ items, Yields (write a) [] fun pool bytes => Reads (reader pool) bytes a) :
    Yields (Descriptor.writeEach write items) [] fun pool bytes =>
      Reads (Decoder.times items.length (reader pool)) bytes items := by
  have hall : Yields (Descriptor.writeEach write items) (items.flatMap fun _ => [])
      fun pool bytes => Reads (Decoder.times items.length (reader pool)) bytes (items.map id) :=
    yields_writeEach h
  have hnone : items.flatMap (fun _ => ([] : List String)) = [] :=
    List.flatMap_eq_nil_iff.mpr fun _ _ => rfl
  rwa [hnone, List.map_id] at hall

theorem yields_writeCounted (hcount : CountFits items)
    (h : ∀ a ∈ items, Yields (write a) (texts a) fun pool bytes => Reads (reader pool) bytes (view a)) :
    Yields (Descriptor.writeCounted write items) (items.flatMap texts) fun pool bytes =>
      Reads (Decoder.counted (reader pool)) bytes (items.map view) :=
  ((yields_writeEach h).mono fun _ _ hbody => Decoder.reads_counted hcount hbody).bind_pure

end PoolBuilder

end ClassAtlas
