-- The annotations of the parameters of a method. They lie in any number of tables, each of any
-- length, and are put together slot by slot: no slot is lost to a shorter table, and no table to
-- one that came before it.
import Mathlib.Data.List.GetD
import ClassAtlas.Proofs.Descriptor.Invisible
import ClassAtlas.Proofs.Descriptor.Padding

namespace ClassAtlas.Descriptor

open Decoder

/-! ## Slots -/

/-- The annotations of some parameters, with a slot for each of them. -/
abbrev ParameterTable := List (List AnnotationRecord)

/-- Each slot has what the tables have in it, one after the other. A table may be too short for
the slot, but the longest one fills them all. -/
structure Gathers (tables : List ParameterTable) (slots : ParameterTable) : Prop where
  length_eq : slots.length = (tables.map List.length).foldr max 0
  slot_eq : ∀ i (h : i < slots.length), slots[i] = (tables.filterMap (·[i]?)).flatten

theorem length_mergeParameters (known more : ParameterTable) :
    (mergeParameters known more).length = max known.length more.length := by
  fun_induction mergeParameters known more with
  | case1 known => simp
  | case2 more => simp
  | case3 a known b more ih => simp only [List.length_cons, ih, Nat.succ_max_succ]

theorem getD_mergeParameters (known more : ParameterTable) (i : Nat) :
    (mergeParameters known more).getD i [] = known.getD i [] ++ more.getD i [] := by
  fun_induction mergeParameters known more generalizing i with
  | case1 known => simp
  | case2 more => simp
  | case3 a known b more ih =>
    cases i with
    | zero => simp
    | succ i => simpa using ih i

theorem length_foldl_mergeParameters (tables : List ParameterTable) (known : ParameterTable) :
    (tables.foldl mergeParameters known).length =
      max known.length ((tables.map List.length).foldr max 0) := by
  induction tables generalizing known with
  | nil => simp
  | cons table rest ih =>
    rw [List.foldl_cons, ih, length_mergeParameters, List.map_cons, List.foldr_cons, Nat.max_assoc]

theorem getD_foldl_mergeParameters (tables : List ParameterTable) (known : ParameterTable) (i : Nat) :
    (tables.foldl mergeParameters known).getD i [] =
      known.getD i [] ++ (tables.filterMap (·[i]?)).flatten := by
  induction tables generalizing known with
  | nil => simp
  | cons table rest ih =>
    rw [List.foldl_cons, ih, getD_mergeParameters, List.append_assoc, List.filterMap_cons,
      List.getD_eq_getElem?_getD (l := table)]
    cases table[i]? with
    | none => rfl
    | some slot => rw [List.flatten_cons]; rfl

theorem gathers_foldl_mergeParameters (tables : List ParameterTable) :
    Gathers tables (tables.foldl mergeParameters []) where
  length_eq := by rw [length_foldl_mergeParameters, List.length_nil, Nat.zero_max]
  slot_eq i h := by
    rw [← List.getD_eq_getElem _ [] h, getD_foldl_mergeParameters, List.getD_nil, List.nil_append]

/-- The tables tell all slots. -/
theorem Gathers.unique {tables : List ParameterTable} {slots slots' : ParameterTable}
    (h : Gathers tables slots) (h' : Gathers tables slots') : slots = slots' := by
  refine List.ext_getElem (h.length_eq.trans h'.length_eq.symm) fun i hi hi' => ?_
  rw [h.slot_eq i hi, h'.slot_eq i hi']

/-! ## Attributes -/

variable {options : DecodeOptions} {pool : ConstantPool} {name : String} {body : Bytes}

/-- The attribute tells nothing of parameters, and its body can be read under its name. -/
structure ReadAside (options : DecodeOptions) (pool : ConstantPool) (name : String) (body : Bytes) :
    Prop where
  aside : name ∉ parameterNames options
  accepted : ∃ known next, run (methodAttribute options pool name known) body = .ok next

/-- The tables of the annotations of parameters among some attributes, in order. -/
inductive Tables (options : DecodeOptions) (pool : ConstantPool) :
    List RawAttribute → List ParameterTable → Prop
  | nil : Tables options pool [] []
  | table {a : RawAttribute} {name : String} {table : ParameterTable} {rest : List RawAttribute}
      {tables : List ParameterTable} :
      pool.text a.name = .ok name → name ∈ parameterNames options →
      run (AnnotationRecord.decodeParameters pool) a.body = .ok table →
      Tables options pool rest tables → Tables options pool (a :: rest) (table :: tables)
  | aside {a : RawAttribute} {name : String} {rest : List RawAttribute}
      {tables : List ParameterTable} :
      pool.text a.name = .ok name → ReadAside options pool name a.body →
      Tables options pool rest tables → Tables options pool (a :: rest) tables

theorem methodAttribute_parameters (h : name ∈ parameterNames options) (known : MethodRecord) :
    methodAttribute options pool name known = do
      let more ← AnnotationRecord.decodeParameters pool
      return { known with parameterAnnotations := mergeParameters known.parameterAnnotations more } := by
  unfold parameterNames at h
  split at h
  case isTrue hinvisible =>
    simp only [List.mem_cons, List.not_mem_nil, or_false] at h
    rcases h with rfl | rfl <;> simp [methodAttribute, hinvisible]
  case isFalse =>
    obtain rfl := List.mem_singleton.mp h
    rfl

/-- Whether a body is accepted does not depend on what is known of the method so far. -/
theorem entails_methodAttribute_aside (h : name ∉ parameterNames options) (known other : MethodRecord) :
    Entails (methodAttribute options pool name known) (methodAttribute options pool name other)
      fun _ next => next.parameterAnnotations = other.parameterAnnotations := by
  unfold methodAttribute
  split
  case h_4 =>
    split
    · exact entails_bind fun _ => entails_pure rfl
    · exact entails_pure rfl
  case h_5 => simp [parameterNames] at h
  case h_6 =>
    split
    case isTrue hinvisible => simp [parameterNames, hinvisible] at h
    case isFalse => exact entails_pure rfl
  case h_8 => exact entails_pure rfl
  all_goals exact entails_bind fun _ => entails_pure rfl

/-! ## Methods -/

variable {attributes : List RawAttribute} {tables : List ParameterTable} {known final : MethodRecord}

theorem tables_of_walks (h : Walks pool (methodAttribute options pool) attributes known final) :
    ∃ tables, Tables options pool attributes tables ∧
      final.parameterAnnotations = tables.foldl mergeParameters known.parameterAnnotations := by
  induction h with
  | nil known => exact ⟨[], .nil, rfl⟩
  | @cons a name rest known next final htext hrun _ ih =>
    obtain ⟨tables, htables, hfinal⟩ := ih
    by_cases hname : name ∈ parameterNames options
    · -- a table, which is put behind those that are known
      rw [methodAttribute_parameters hname] at hrun
      obtain ⟨c, hread⟩ := run_eq_ok hrun
      obtain ⟨table, c₁, htable, hpure⟩ := bind_eq_ok hread
      cases hpure
      exact ⟨table :: tables, .table htext hname (run_of_ok htable) htables, hfinal⟩
    · -- any other attribute, which leaves the parameters as they are
      obtain ⟨next', hrun', hnext⟩ := (entails_methodAttribute_aside hname known known).run hrun
      obtain rfl : next = next' := Except.ok.inj (hrun.symm.trans hrun')
      refine ⟨tables, .aside htext ⟨hname, known, next, hrun⟩ htables, ?_⟩
      rw [hfinal, hnext]

theorem Tables.walks (h : Tables options pool attributes tables) (known : MethodRecord) :
    ∃ final, Walks pool (methodAttribute options pool) attributes known final ∧
      final.parameterAnnotations = tables.foldl mergeParameters known.parameterAnnotations := by
  induction h generalizing known with
  | nil => exact ⟨known, .nil known, rfl⟩
  | @table a name table rest tables htext hname hrun _ ih =>
    obtain ⟨c, hread⟩ := run_eq_ok hrun
    obtain ⟨final, hwalks, hfinal⟩ := ih { known with
      parameterAnnotations := mergeParameters known.parameterAnnotations table }
    refine ⟨final, .cons htext ?_ hwalks, hfinal⟩
    rw [methodAttribute_parameters hname]
    exact run_of_ok (bind_of_ok hread)
  | @aside a name rest tables htext haside _ ih =>
    obtain ⟨hname, other, next, hrun⟩ := haside
    obtain ⟨next', hrun', hnext⟩ := (entails_methodAttribute_aside hname other known).run hrun
    obtain ⟨final, hwalks, hfinal⟩ := ih next'
    exact ⟨final, .cons htext hrun' hwalks, by rw [hfinal, hnext]⟩

/-- Whatever is accepted as a method has, slot by slot, the annotations of all tables among its
attributes, and as many slots as the longest of them. A method is accepted with any tables, if its
names are in the pool and its other attributes can be read. -/
theorem parameter_annotations_are_gathered_slot_by_slot (options : DecodeOptions) (pool : ConstantPool) :
    (∀ c record issues c', method options pool c = .ok (record, issues) c' →
      ∃ (m : RawMember) (tables : List ParameterTable), c.rest = m.bytes ++ c'.rest ∧
        Tables options pool m.attributes.items tables ∧ Gathers tables record.parameterAnnotations) ∧
    ∀ (m : RawMember) (name descriptor : String) (tables : List ParameterTable),
      pool.text m.name = .ok name → pool.text m.descriptor = .ok descriptor →
      Tables options pool m.attributes.items tables →
      ∃ record issues, Reads (method options pool) m.bytes (record, issues) ∧
        Gathers tables record.parameterAnnotations := by
  rw [method_eq_member]
  constructor
  · intro c record issues c' hok
    obtain ⟨m, name, descriptor, known, hrest, -, -, hwalks, hput⟩ := member_eq_ok hok
    obtain ⟨tables, htables, hknown⟩ := tables_of_walks hwalks
    refine ⟨m, tables, hrest, htables, ?_⟩
    have hrecord : record.parameterAnnotations = known.parameterAnnotations :=
      congrArg (fun x => x.1.parameterAnnotations) hput
    rw [hrecord, hknown]
    exact gathers_foldl_mergeParameters tables
  · intro m name descriptor tables hname hdescriptor htables
    obtain ⟨known, hwalks, hknown⟩ := htables.walks (bareMethod m.access name descriptor)
    refine ⟨_, _, hwalks.reads_member hname hdescriptor, ?_⟩
    show Gathers tables known.parameterAnnotations
    rw [hknown]
    exact gathers_foldl_mergeParameters tables

/-- Annotations of a method between four tables: one of two slots, one without slots, one of one
slot and one of three slots. -/
def crowdedAttributes : List RawAttribute := [
  ⟨10, [2, 0, 1, 0, 6, 0, 0, 0, 1, 0, 5, 0, 0], by decide⟩,
  ⟨9, [0], by decide⟩,
  ⟨8, [0, 1, 0, 5, 0, 0], by decide⟩,
  ⟨9, [1, 0, 2, 0, 5, 0, 0, 0, 6, 0, 0], by decide⟩,
  ⟨10, [3, 0, 0, 0, 0, 0, 1, 0, 6, 0, 0], by decide⟩]

/-- The method of a gate. -/
def crowdedMethod : RawMember := ⟨0x0001, 3, 4, ⟨crowdedAttributes, by decide⟩⟩

def seen : AnnotationRecord := ⟨"Seen", []⟩

def hidden : AnnotationRecord := ⟨"Hidden", []⟩

theorem crowded_tables_are_gathered :
    ∃ record issues, Reads (method ⟨true⟩ gate.pool) crowdedMethod.bytes (record, issues) ∧
      record.parameterAnnotations = [[hidden, seen, hidden], [seen], [hidden]] := by
  have htables : Tables ⟨true⟩ gate.pool crowdedMethod.attributes.items
      [[[hidden], [seen]], [], [[seen, hidden]], [[], [], [hidden]]] := by
    refine .table rfl (by decide) rfl (.table rfl (by decide) rfl ?_)
    refine .aside rfl ⟨by decide, ?_⟩ (.table rfl (by decide) rfl (.table rfl (by decide) rfl .nil))
    exact ⟨bareMethod 1 "open" "(II)V", _, rfl⟩
  obtain ⟨record, issues, hreads, hgathers⟩ :=
    (parameter_annotations_are_gathered_slot_by_slot ⟨true⟩ gate.pool).2 crowdedMethod "open" "(II)V"
      _ rfl rfl htables
  exact ⟨record, issues, hreads, hgathers.unique (gathers_foldl_mergeParameters _)⟩

end ClassAtlas.Descriptor
