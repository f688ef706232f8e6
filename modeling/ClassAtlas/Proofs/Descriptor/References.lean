-- The classes that a constant pool names. They are listed once each, so a class constant
-- that is asked for again, and shared with the one that is there, changes nothing.
import ClassAtlas.Proofs.Descriptor.Writing

namespace ClassAtlas

/-! ## The classes of a pool -/

namespace Descriptor

theorem referencedClasses_snoc (own : String) (names : List String) (name : String) :
    referencedClasses own (names ++ [name]) =
      (constantClass? name).elim (referencedClasses own names)
        (addReferenced own (referencedClasses own names)) := by
  unfold referencedClasses
  rw [List.filterMap_append, List.foldl_append]
  cases hclass : constantClass? name <;> simp [hclass]

theorem referencedClasses_congr {own : String} {names more : List String} (name : String)
    (h : referencedClasses own names = referencedClasses own more) :
    referencedClasses own (names ++ [name]) = referencedClasses own (more ++ [name]) := by
  rw [referencedClasses_snoc, referencedClasses_snoc, h]

theorem mem_addReferenced {own name other : String} {found : List String} :
    other ∈ addReferenced own found name ↔ other ∈ found ∨ other = name ∧ name ≠ own := by
  unfold addReferenced
  split <;> grind

theorem nodup_addReferenced {own name : String} {found : List String} (h : found.Nodup) :
    (addReferenced own found name).Nodup := by
  unfold addReferenced
  split
  · exact h
  · next hnew =>
    have hother : name ∉ found := fun hmem => hnew (Or.inr hmem)
    exact List.nodup_append.mpr ⟨h, by simp, by grind⟩

theorem mem_foldl_addReferenced {own other : String} {names found : List String} :
    other ∈ names.foldl (addReferenced own) found ↔ other ∈ found ∨ other ∈ names ∧ other ≠ own := by
  induction names generalizing found with
  | nil => simp
  | cons name names ih =>
    rw [List.foldl_cons, ih, mem_addReferenced]
    grind

theorem nodup_foldl_addReferenced {own : String} {names found : List String} (h : found.Nodup) :
    (names.foldl (addReferenced own) found).Nodup := by
  induction names generalizing found with
  | nil => exact h
  | cons name names ih => exact ih (nodup_addReferenced h)

/-- What is listed: the classes that the constants name, without the class itself. -/
theorem mem_referencedClasses {own name : String} {names : List String} :
    name ∈ referencedClasses own names ↔ name ≠ own ∧ ∃ text ∈ names, constantClass? text = some name := by
  unfold referencedClasses
  rw [mem_foldl_addReferenced, List.mem_filterMap]
  simp [and_comm]

theorem nodup_referencedClasses (own : String) (names : List String) :
    (referencedClasses own names).Nodup := nodup_foldl_addReferenced List.nodup_nil

/-- A class that is there already is not listed again. -/
theorem referencedClasses_again {own text : String} {names : List String} (h : text ∈ names) :
    referencedClasses own (names ++ [text]) = referencedClasses own names := by
  rw [referencedClasses_snoc]
  cases hclass : constantClass? text with
  | none => rfl
  | some name =>
    have hmem : name = own ∨ name ∈ referencedClasses own names :=
      or_iff_not_imp_left.mpr fun hother => mem_referencedClasses.mpr ⟨hother, text, h, hclass⟩
    simp [addReferenced, hmem]

end Descriptor

/-- The texts of the classes among some constants. -/
def classTexts (pool : ConstantPool) (constants : List Constant) :
    Except DescriptorFault (List String) :=
  (constants.filterMap Constant.classIndex?).mapM pool.text

theorem classTexts_append {pool : ConstantPool} {front back : List Constant}
    {names more : List String} (hfront : classTexts pool front = .ok names)
    (hback : classTexts pool back = .ok more) :
    classTexts pool (front ++ back) = .ok (names ++ more) := by
  unfold classTexts at *
  rw [List.filterMap_append, List.mapM_append, hfront, hback]
  rfl

theorem mem_of_classTexts {pool : ConstantPool} {constants : List Constant} {names : List String}
    {i : UInt16} {name : String} (h : classTexts pool constants = .ok names)
    (hmem : .classRef i ∈ constants) (hname : pool.text i = .ok name) : name ∈ names := by
  obtain ⟨front, back, rfl⟩ := List.append_of_mem hmem
  unfold classTexts at h
  have hcons : (Constant.classRef i :: back).filterMap Constant.classIndex? =
      i :: back.filterMap Constant.classIndex? := rfl
  rw [List.filterMap_append, hcons, List.mapM_append, List.mapM_cons, hname] at h
  cases hfront : (front.filterMap Constant.classIndex?).mapM pool.text with
  | error fault =>
    rw [hfront] at h
    cases h
  | ok found =>
    cases hback : (back.filterMap Constant.classIndex?).mapM pool.text with
    | error fault =>
      rw [hfront, hback] at h
      cases h
    | ok more =>
      rw [hfront, hback] at h
      cases h
      simp

theorem ConstantPool.classNames_ofConstants (constants : List Constant) :
    (ofConstants constants).classNames = classTexts (ofConstants constants) constants := by
  have hindices : (constants.flatMap Constant.spread).filterMap Constant.classIndex? =
      constants.filterMap Constant.classIndex? := by
    induction constants with
    | nil => rfl
    | cons c rest ih =>
      rw [List.flatMap_cons, List.filterMap_append, ih]
      cases c <;> rfl
  unfold classTexts
  rw [← hindices]
  rfl

namespace PoolBuilder

/-- A pool that grows by class constants lists their classes behind those that it had. -/
theorem Grows.classTexts {p q : PoolBuilder} {texts names : List String} {pool : ConstantPool}
    (h : Grows p texts q) (hheld : q.Held pool) (hp : classTexts pool p.constants = .ok names) :
    ∃ found, ClassAtlas.classTexts pool q.constants = .ok found ∧
      ∀ own, Descriptor.referencedClasses own found =
        Descriptor.referencedClasses own (names ++ texts) := by
  induction h with
  | refl => exact ⟨names, hp, fun own => by rw [List.append_nil]⟩
  | @other q texts c hgrows _ hno ih =>
    have hheld' : q.Held pool := fun d i hmem => hheld d i (subset_intern c q hmem)
    obtain ⟨found, hfound, hlisted⟩ := ih hheld'
    refine ⟨found, ?_, hlisted⟩
    rcases constants_intern c q with ⟨_, heq⟩ | ⟨_, heq⟩
    · rw [heq]
      exact hfound
    · have hnone : ClassAtlas.classTexts pool [c] = .ok [] := by
        cases c <;> first | rfl | exact absurd rfl (hno _)
      rw [heq, ← List.append_nil found]
      exact classTexts_append hfound hnone
  | @classRef q texts text i hgrows hmem ih =>
    have hheld' : q.Held pool := fun d j hd => hheld d j (subset_intern _ q hd)
    have htext : pool.text i = .ok text := pick_of_get (hheld' _ _ hmem) rfl
    obtain ⟨found, hfound, hlisted⟩ := ih hheld'
    rcases constants_intern (.classRef i) q with ⟨hclass, heq⟩ | ⟨_, heq⟩
    · refine ⟨found, ?_, ?_⟩
      · rw [heq]
        exact hfound
      · intro own
        have hagain := mem_of_classTexts hfound hclass htext
        rw [← List.append_assoc, ← Descriptor.referencedClasses_congr text (hlisted own),
          Descriptor.referencedClasses_again hagain]
    · refine ⟨found ++ [text], ?_, ?_⟩
      · have hone : ClassAtlas.classTexts pool [.classRef i] = .ok [text] := by
          show [i].mapM pool.text = .ok [text]
          rw [List.mapM_cons, htext]
          rfl
        rw [heq]
        exact classTexts_append hfound hone
      · intro own
        rw [← List.append_assoc]
        exact Descriptor.referencedClasses_congr text (hlisted own)

end PoolBuilder

end ClassAtlas
