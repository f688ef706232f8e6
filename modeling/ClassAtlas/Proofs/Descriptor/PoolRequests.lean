-- What a pool under construction is asked for. Each number that it gives is the one under which
-- the finished pool has the constant, however much is asked for later, and two requests get one
-- number just when they are for the same thing. A class or a string names the number of its text.
import Mathlib.Data.List.Find
import Mathlib.Data.List.Forall2
import ClassAtlas.Proofs.Descriptor.NormalForm

namespace ClassAtlas

open BigEndian (word16)
open PoolBuilder (Writer intern empty mem_intern subset_intern)

/-! ## Constants and their bytes -/

theorem Constant.encode_inj {c d : Constant} (hc : c.Fits) (hd : d.Fits) :
    c.encode = d.encode ↔ c = d := by
  refine ⟨fun h => ?_, fun h => by rw [h]⟩
  have hread := reads_encode hc 0 0 []
  rw [h, reads_encode hd 0 0 []] at hread
  injection hread with hsame
  exact hsame.symm

/-- Constants may be looked for by their bytes as well. -/
theorem PoolBuilder.Sound.find?_encode {p : PoolBuilder} (h : p.Sound) {c : Constant} (hc : c.Fits) :
    p.entries.find? (fun e => e.1.encode = c.encode) = p.entries.find? fun e => e.1 = c := by
  refine List.find?_congr fun e he => decide_eq_decide.mpr ?_
  exact Constant.encode_inj (h.fits e.1 (List.mem_map_of_mem he)) hc

/-! ## Requests -/

/-- A constant that a pool under construction is asked for. A class is given by its name with dots
or slashes, a number of floating point by its bits. -/
inductive PoolRequest
  | text (value : String)
  | classRef (name : String)
  | string (value : String)
  | integer (value : Int32)
  | float (bits : UInt32)
  | long (value : Int64)
  | double (bits : UInt64)
deriving DecidableEq

namespace PoolRequest

def ask : PoolRequest → Writer UInt16
  | text value => PoolBuilder.text value
  | classRef name => PoolBuilder.classRef name
  | string value => PoolBuilder.string value
  | integer value => intern (.integer value)
  | float bits => intern (.float bits)
  | long value => intern (.long value)
  | double bits => intern (.double bits)

/-- The numbers of some constants, asked for one after the other. -/
def askAll : List PoolRequest → Writer (List UInt16)
  | [] => return []
  | request :: rest => do
    let index ← request.ask
    let indices ← askAll rest
    return index :: indices

/-- The text that is written for a request. -/
def writtenText? : PoolRequest → Option String
  | text value | string value => some value
  | classRef name => some (Name.slashed name)
  | _ => none

def Fits (request : PoolRequest) : Prop := ∀ value ∈ request.writtenText?, TextFits value

instance (request : PoolRequest) : Decidable request.Fits :=
  inferInstanceAs (Decidable (∀ value ∈ request.writtenText?, TextFits value))

/-- The request with the name of a class as it is written. -/
def slashed : PoolRequest → PoolRequest
  | classRef name => classRef (Name.slashed name)
  | request => request

/-- The pool has what was asked for under the number. -/
def FoundIn (pool : ConstantPool) : PoolRequest → UInt16 → Prop
  | text value, i => pool.text i = .ok value
  | classRef name, i => pool.className i = .ok (Name.slashed name)
  | string value, i => ∃ content, pool.get i = .ok (.string content) ∧ pool.text content = .ok value
  | integer value, i => pool.integer i = .ok value
  | float bits, i => pool.float i = .ok bits
  | long value, i => pool.long i = .ok value
  | double bits, i => pool.double i = .ok bits

/-! ## Constants under their numbers -/

/-- The constant of a request. A class or a string has the number of its text. -/
def constant : PoolRequest → UInt16 → Constant
  | text value, _ => .text value
  | classRef _, n => .classRef n
  | string _, n => .string n
  | integer value, _ => .integer value
  | float bits, _ => .float bits
  | long value, _ => .long value
  | double bits, _ => .double bits

/-- The text that the constant of a request names. -/
def namedText? : PoolRequest → Option String
  | classRef name => some (Name.slashed name)
  | string value => some value
  | _ => none

/-- The constant of the request has the number `i`, and the text that it names has the number that
it names. `Has` tells the numbers of constants. -/
def GotFrom (Has : Constant → UInt16 → Prop) (request : PoolRequest) (i : UInt16) : Prop :=
  ∃ n, Has (request.constant n) i ∧ ∀ value ∈ request.namedText?, Has (.text value) n

variable {Has More : Constant → UInt16 → Prop} {a b request : PoolRequest} {i j : UInt16}

theorem GotFrom.mono (h : request.GotFrom Has i) (hmore : ∀ c n, Has c n → More c n) :
    request.GotFrom More i := by
  obtain ⟨n, hconstant, htext⟩ := h
  exact ⟨n, hmore _ _ hconstant, fun value hvalue => hmore _ _ (htext value hvalue)⟩

theorem slashed_eq_of_constant_eq {n m : UInt16} (hconstant : a.constant n = b.constant m)
    (htext : n = m → ∀ s ∈ a.namedText?, ∀ t ∈ b.namedText?, s = t) : a.slashed = b.slashed := by
  cases a <;> cases b <;> simp_all [constant, namedText?, slashed]

/-- A number has one constant, so it is given for one thing only. -/
theorem GotFrom.slashed_eq (hone : ∀ c d n, Has c n → Has d n → c = d) (ha : a.GotFrom Has i)
    (hb : b.GotFrom Has i) : a.slashed = b.slashed := by
  obtain ⟨n, haconstant, hatext⟩ := ha
  obtain ⟨m, hbconstant, hbtext⟩ := hb
  refine slashed_eq_of_constant_eq (hone _ _ i haconstant hbconstant) ?_
  rintro rfl s hs t ht
  exact Constant.text.inj (hone _ _ n (hatext s hs) (hbtext t ht))

theorem congr_of_slashed_eq (h : a.slashed = b.slashed) :
    a.constant = b.constant ∧ a.namedText? = b.namedText? := by
  have hconstant : ∀ n, a.constant n = b.constant n := by
    cases a <;> cases b <;> simp_all [slashed, constant]
  have hnamed : a.namedText? = b.namedText? := by
    cases a <;> cases b <;> simp_all [slashed, namedText?]
  exact ⟨funext hconstant, hnamed⟩

theorem constant_eq_of_namedText?_eq_none (h : request.namedText? = none) (n m : UInt16) :
    request.constant n = request.constant m := by
  cases request <;> first | rfl | cases h

/-- A constant has one number, so the same thing gets the same number. -/
theorem GotFrom.number_eq (hone : ∀ c n m, Has c n → Has c m → n = m) (ha : a.GotFrom Has i)
    (hb : b.GotFrom Has j) (h : a.slashed = b.slashed) : i = j := by
  obtain ⟨n, haconstant, hatext⟩ := ha
  obtain ⟨m, hbconstant, hbtext⟩ := hb
  obtain ⟨hconstant, hnamed⟩ := congr_of_slashed_eq h
  -- both name the number of one text, or they name none and any number does
  have hsame : a.constant n = a.constant m := by
    cases htext : a.namedText? with
    | none => exact constant_eq_of_namedText?_eq_none htext n m
    | some value => rw [hone _ _ _ (hatext value htext) (hbtext value (hnamed ▸ htext))]
  rw [hsame] at haconstant
  rw [← hconstant] at hbconstant
  exact hone _ _ _ haconstant hbconstant

/-- What has its number in the finished pool is found there. -/
theorem GotFrom.foundIn {pool : ConstantPool} (h : request.GotFrom (fun c n => pool.get n = .ok c) i) :
    request.FoundIn pool i := by
  obtain ⟨n, hconstant, htext⟩ := h
  cases request with
  | text value | integer value | float value | long value | double value =>
    exact PoolBuilder.pick_of_get hconstant rfl
  | classRef name =>
    exact PoolBuilder.className_of_get hconstant (PoolBuilder.pick_of_get (htext _ rfl) rfl)
  | string value => exact ⟨n, hconstant, PoolBuilder.pick_of_get (htext _ rfl) rfl⟩

/-! ## Asking -/

theorem ask_eq_intern (h : request.namedText? = none) : request.ask = intern (request.constant 0) := by
  cases request <;> first | rfl | cases h

/-- The text that is named is there before the constant that names it. -/
theorem ask_of_namedText? {value : String} (h : request.namedText? = some value) (p : PoolBuilder) :
    request.ask p = intern (request.constant (intern (.text value) p).1) (intern (.text value) p).2 := by
  cases request <;> cases h <;> rfl

theorem Fits.constant (h : request.Fits) (n : UInt16) : (request.constant n).Fits := by
  cases request with
  | text value => exact h value rfl
  | _ => trivial

theorem Fits.named (h : request.Fits) {value : String} (hvalue : request.namedText? = some value) :
    TextFits value := by
  cases request <;> cases hvalue <;> exact h _ rfl

/-- The constants of the pool are numbered one after the other, and none is there twice. -/
structure Shared (p : PoolBuilder) : Prop where
  sound : p.Sound
  once : p.constants.Nodup

theorem shared_empty : Shared empty := ⟨PoolBuilder.sound_empty, List.nodup_nil⟩

variable {p : PoolBuilder}

theorem Shared.intern (h : Shared p) {c : Constant} (hc : c.Fits) : Shared (intern c p).2 :=
  ⟨h.sound.intern hc, PoolBuilder.nodup_intern h.once c⟩

theorem Shared.ask (h : Shared p) (hfits : request.Fits) : Shared (request.ask p).2 := by
  cases htext : request.namedText? with
  | none =>
    rw [ask_eq_intern htext]
    exact h.intern (hfits.constant 0)
  | some value =>
    rw [ask_of_namedText? htext]
    exact (h.intern (c := .text value) (hfits.named htext)).intern (hfits.constant _)

theorem subset_ask (request : PoolRequest) (p : PoolBuilder) :
    p.entries ⊆ (request.ask p).2.entries := by
  cases htext : request.namedText? with
  | none =>
    rw [ask_eq_intern htext]
    exact subset_intern _ p
  | some value =>
    rw [ask_of_namedText? htext]
    exact List.Subset.trans (subset_intern _ p) (subset_intern _ _)

theorem gotFrom_ask (request : PoolRequest) (p : PoolBuilder) :
    request.GotFrom (fun c n => (c, n) ∈ (request.ask p).2.entries) (request.ask p).1 := by
  cases htext : request.namedText? with
  | none =>
    rw [ask_eq_intern htext]
    exact ⟨0, mem_intern _ p, by simp [htext]⟩
  | some value =>
    rw [ask_of_namedText? htext]
    refine ⟨_, mem_intern _ _, fun named hnamed => ?_⟩
    obtain rfl : value = named := by simpa [htext] using hnamed
    exact subset_intern _ _ (mem_intern _ p)

/-! ## Asking again and again -/

theorem Shared.askAll {requests : List PoolRequest} (h : Shared p) (hfits : ∀ r ∈ requests, r.Fits) :
    Shared (askAll requests p).2 := by
  induction requests generalizing p with
  | nil => exact h
  | cons request rest ih =>
    obtain ⟨hrequest, hrest⟩ := List.forall_mem_cons.mp hfits
    exact ih (h.ask hrequest) hrest

theorem subset_askAll (requests : List PoolRequest) (p : PoolBuilder) :
    p.entries ⊆ (askAll requests p).2.entries := by
  induction requests generalizing p with
  | nil => exact List.Subset.refl _
  | cons request rest ih => exact List.Subset.trans (subset_ask request p) (ih _)

/-- What a request got stays there through all later ones. -/
theorem gotFrom_askAll (requests : List PoolRequest) (p : PoolBuilder) :
    List.Forall₂ (GotFrom fun c n => (c, n) ∈ (askAll requests p).2.entries) requests
      (askAll requests p).1 := by
  induction requests generalizing p with
  | nil => exact .nil
  | cons request rest ih =>
    exact .cons ((gotFrom_ask request p).mono fun _ _ hmem => subset_askAll rest _ hmem) (ih _)

/-- The finished pool of requests that fit reads back from its bytes, and has what each of them
asked for under the number that it was given. Two requests were given the same number exactly if
they ask for the same kind of constant and the same value. -/
theorem a_pool_has_what_it_was_asked_for {requests : List PoolRequest} {indices : List UInt16}
    {built : PoolBuilder} (hask : askAll requests empty = (indices, built))
    (hfits : ∀ r ∈ requests, r.Fits) (hslots : slotsOf built.constants ≤ 65534) :
    ∃ pool, Decoder.Reads ConstantPool.decode (word16 built.next ++ built.bytes) pool ∧
      List.Forall₂ (FoundIn pool) requests indices ∧
      ∀ a i b j, (a, i) ∈ requests.zip indices → (b, j) ∈ requests.zip indices →
        (i = j ↔ a.slashed = b.slashed) := by
  have hshared := shared_empty.askAll hfits
  have hgot := gotFrom_askAll requests empty
  rw [hask] at hshared hgot
  have hheld := hshared.sound.held hslots
  -- the finished pool has one constant under a number, and the builder one number for a constant
  have hconstant : ∀ c d n, (c, n) ∈ built.entries → (d, n) ∈ built.entries → c = d := by
    intro c d n hc hd
    have hget := hheld c n hc
    rw [hheld d n hd] at hget
    exact (Except.ok.inj hget).symm
  have hnumber : ∀ c n m, (c, n) ∈ built.entries → (c, m) ∈ built.entries → n = m :=
    fun c n m hn hm => (Prod.mk.inj (List.inj_on_of_nodup_map hshared.once hn hm rfl)).2
  refine ⟨_, hshared.sound.reads hslots, hgot.imp fun a i ha => (ha.mono hheld).foundIn, ?_⟩
  intro a i b j ha hb
  have hgota := (List.forall₂_iff_zip.mp hgot).2 ha
  have hgotb := (List.forall₂_iff_zip.mp hgot).2 hb
  constructor
  · rintro rfl
    exact hgota.slashed_eq hconstant hgotb
  · exact hgota.number_eq hnumber hgotb

/-- Classes with dots and with slashes, the text and the name of the same class, and one number as
three kinds of constants. -/
def mixedRequests : List PoolRequest :=
  [.text "A", .classRef "p.A", .long 5, .string "A", .classRef "p/A", .text "p/A", .double 5,
    .integer 5, .string "A"]

def mixedIndices : List UInt16 := [1, 3, 4, 6, 3, 2, 7, 9, 6]

/-- The class is found under one number by either spelling, and its name is there once. -/
theorem mixed_requests_are_found :
    ∃ built pool, askAll mixedRequests empty = (mixedIndices, built) ∧
      Decoder.Reads ConstantPool.decode (word16 built.next ++ built.bytes) pool ∧
      FoundIn pool (classRef "p.A") 3 ∧ FoundIn pool (text "p/A") 2 ∧ FoundIn pool (double 5) 7 ∧
      (classRef "p.A").slashed = (classRef "p/A").slashed := by
  have hask : askAll mixedRequests empty = (mixedIndices, (askAll mixedRequests empty).2) :=
    Prod.ext (by decide) rfl
  have hfits : ∀ r ∈ mixedRequests, r.Fits := by decide
  have hslots : slotsOf (askAll mixedRequests empty).2.constants ≤ 65534 := by decide
  obtain ⟨pool, hreads, hfound, hsame⟩ := a_pool_has_what_it_was_asked_for hask hfits hslots
  obtain ⟨-, hzip⟩ := List.forall₂_iff_zip.mp hfound
  have hdotted : (classRef "p.A", 3) ∈ mixedRequests.zip mixedIndices := by decide
  have hslashed : (classRef "p/A", 3) ∈ mixedRequests.zip mixedIndices := by decide
  have htext : (text "p/A", 2) ∈ mixedRequests.zip mixedIndices := by decide
  have hdouble : (double 5, 7) ∈ mixedRequests.zip mixedIndices := by decide
  exact ⟨_, pool, hask, hreads, hzip hdotted, hzip htext, hzip hdouble,
    (hsame _ _ _ _ hdotted hslashed).mp rfl⟩

end PoolRequest

end ClassAtlas
