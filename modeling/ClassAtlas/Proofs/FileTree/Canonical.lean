-- Paths as texts and the places they lead to. A canonical path spells the names of its place,
-- and a path with one more name leads one step further unless a link stands there.
import ClassAtlas.FileTree.Listing
import ClassAtlas.Proofs.Text.Parts

namespace ClassAtlas

/-! ## Names of a path -/

namespace Path

/-- A text that names something inside a folder. -/
structure IsProper (name : String) : Prop where
  notIdle : isIdle name = false
  noSlash : '/' ∉ name.toList

/-- The names on a path have no slash. -/
theorem noSlash_of_mem_names {path name : String} (h : name ∈ names path) : '/' ∉ name.toList := by
  unfold names at h
  obtain ⟨part, hpart, rfl⟩ := List.mem_map.mp h
  rw [String.toList_ofList]
  exact Text.notMem_of_mem_splitAt hpart

/-- A path that spells the names of a place. -/
def IsCanonical (path : String) : Prop :=
  ∃ place : List String, (∀ name ∈ place, IsProper name) ∧ path = ofNames place

theorem names_ofNames {place : List String} (h : ∀ name ∈ place, IsProper name) :
    names (ofNames place) = "" :: if place = [] then [""] else place := by
  have htext : (ofNames place).toList = [] ++ '/' :: Text.join ['/'] (place.map String.toList) := by
    unfold ofNames Text.joined
    simp only [String.toList_append, String.toList_ofList]
    rfl
  unfold names
  rw [htext, Text.splitAt_append]
  by_cases hplace : place = []
  · subst hplace
    rfl
  · have hparts : ∀ part ∈ place.map String.toList, '/' ∉ part := by
      intro part hpart
      obtain ⟨name, hname, rfl⟩ := List.mem_map.mp hpart
      exact (h name hname).noSlash
    rw [Text.splitAt_join (by simpa using hplace) hparts, if_neg hplace]
    simp [Text.splitAt, Function.comp_def]

theorem not_isAbsolute {name : String} (h : '/' ∉ name.toList) : isAbsolute name = false := by
  unfold isAbsolute
  rw [decide_eq_false_iff_not]
  intro hhead
  exact h (List.mem_of_mem_head? (by simp [hhead]))

theorem names_append {path name : String} {text : List Char} (hname : '/' ∉ name.toList)
    (hpath : path.toList = text ++ '/' :: name.toList) :
    names path = (Text.splitAt '/' text).map String.ofList ++ [name] := by
  unfold names
  rw [hpath, Text.splitAt_append, Text.splitAt_of_notMem hname]
  simp

section

variable {base name : String} (hbase : base ≠ "") (hend : base.toList.getLast? ≠ some '/')
  (hname : '/' ∉ name.toList)

include hbase hend hname

theorem toList_join : (join base name).toList = base.toList ++ '/' :: name.toList := by
  have hjoin : join base name = base ++ "/" ++ name := by
    simp [join, not_isAbsolute hname, hend, hbase]
  rw [hjoin, String.toList_append, String.toList_append, List.append_assoc]
  rfl

/-- A path below a folder has the names of the folder and one more. -/
theorem names_join : names (join base name) = names base ++ [name] :=
  names_append hname (toList_join hbase hend hname)

theorem isAbsolute_join : isAbsolute (join base name) = isAbsolute base := by
  unfold isAbsolute
  rw [toList_join hbase hend hname, List.head?_append]
  cases hchars : base.toList with
  | nil => exact absurd (String.toList_eq_nil_iff.mp hchars) hbase
  | cons c rest => rfl

end

/-- Paths below one folder differ in their last names alone. -/
theorem exists_names_join (base : String) : ∃ front, ∀ name : String, '/' ∉ name.toList →
    names (join base name) = front ++ [name] := by
  by_cases hempty : base = ""
  · refine ⟨[], fun name hname => ?_⟩
    have hjoin : join base name = name := by simp [join, not_isAbsolute hname, hempty]
    rw [hjoin, names, Text.splitAt_of_notMem hname]
    simp
  by_cases hend : base.toList.getLast? = some '/'
  · obtain ⟨text, htext⟩ := List.getLast?_eq_some_iff.mp hend
    refine ⟨(Text.splitAt '/' text).map String.ofList, fun name hname => names_append hname ?_⟩
    have hjoin : join base name = base ++ name := by simp [join, not_isAbsolute hname, hend]
    rw [hjoin, String.toList_append, htext, List.append_assoc]
    rfl
  · exact ⟨names base, fun name hname => names_join hempty hend hname⟩

end Path

namespace FileTree

open ClassAtlas.Path (IsProper IsCanonical)

/-! ## Places that paths lead to -/

theorem descend_cons (t : FileTree) (follow : Place → List String → Option Place) (current : Place)
    (name : String) (rest : List String) : t.descend follow current (name :: rest) =
      if !t.hasFolder current then none
      else if Path.isIdle name then t.descend follow current rest
      else if name = ".." then t.descend follow current.dropLast rest
      else
        match t.at? (current ++ [name]) with
        | none => if rest = [] then some (current ++ [name]) else none
        | some (.link target) =>
          follow (if Path.isAbsolute target then [] else current) (Path.names target ++ rest)
        | some _ => t.descend follow (current ++ [name]) rest := rfl

/-- Going down by names without slashes from a place with proper names ends at another one. -/
theorem isProper_descend {t : FileTree} {follow : Place → List String → Option Place}
    (hfollow : ∀ {current names place}, (∀ name ∈ current, IsProper name) →
      (∀ name ∈ names, '/' ∉ name.toList) → follow current names = some place →
      ∀ name ∈ place, IsProper name)
    {current : Place} {names : List String} {place : Place} (hcurrent : ∀ name ∈ current, IsProper name)
    (hnames : ∀ name ∈ names, '/' ∉ name.toList) (h : t.descend follow current names = some place) :
    ∀ name ∈ place, IsProper name := by
  induction names generalizing current with
  | nil =>
    obtain rfl := Option.some.inj h
    exact hcurrent
  | cons name rest ih =>
    have hrest : ∀ name ∈ rest, '/' ∉ name.toList := fun n hn => hnames n (List.mem_cons_of_mem _ hn)
    rw [descend] at h
    split at h
    · cases h
    split at h
    · exact ih hcurrent hrest h
    rename_i hidle
    split at h
    · exact ih (fun n hn => hcurrent n (List.dropLast_subset _ hn)) hrest h
    have hdeeper : ∀ n ∈ current ++ [name], IsProper n := by
      intro n hn
      rcases List.mem_append.mp hn with hn | hn
      · exact hcurrent n hn
      · rw [List.mem_singleton.mp hn]
        exact ⟨Bool.eq_false_iff.mpr hidle, hnames name List.mem_cons_self⟩
    split at h
    · split at h
      · obtain rfl := Option.some.inj h
        exact hdeeper
      · cases h
    · rename_i target _
      refine hfollow (fun n hn => ?_) (fun n hn => ?_) h
      · split at hn
        · cases hn
        · exact hcurrent n hn
      · rcases List.mem_append.mp hn with hn | hn
        · exact Path.noSlash_of_mem_names hn
        · exact hrest n hn
    · exact ih hdeeper hrest h

theorem isProper_followLinks {t : FileTree} {budget : Nat} {current : Place} {names : List String}
    {place : Place} (hcurrent : ∀ name ∈ current, IsProper name)
    (hnames : ∀ name ∈ names, '/' ∉ name.toList)
    (h : t.followLinks budget current names = some place) : ∀ name ∈ place, IsProper name := by
  induction budget generalizing current names place with
  | zero => exact isProper_descend (fun _ _ h => by cases h) hcurrent hnames h
  | succ budget ih => exact isProper_descend (fun hc hn h => ih hc hn h) hcurrent hnames h

/-- A canonical path spells the names of a place, if the working folder has proper names. -/
theorem isCanonical_of_canonical? {t : FileTree} (hworking : ∀ name ∈ t.workingFolder, IsProper name)
    {path canonical : String} (h : t.canonical? path = some canonical) : IsCanonical canonical := by
  unfold canonical? find? at h
  cases hplace : t.place? path with
  | none => simp [hplace] at h
  | some place =>
    cases hat : t.at? place with
    | none => simp [hplace, hat] at h
    | some node =>
      have hcanonical : Path.ofNames place = canonical := by simpa [hplace, hat] using h
      refine ⟨place, ?_, hcanonical.symm⟩
      unfold place? at hplace
      split at hplace
      · cases hplace
      · refine isProper_followLinks ?_ (fun n hn => Path.noSlash_of_mem_names hn) hplace
        intro n hn
        split at hn
        · cases hn
        · exact hworking n hn

/-! ## One more name -/

section

variable {t : FileTree} {name : String} (hidle : Path.isIdle name = false) (hup : name ≠ "..")

include hidle hup

/-- A single name leads to the place with this name, if no link stands there. -/
theorem descend_one {follow : Place → List String → Option Place} {current : Place}
    (hlink : t.hasFolder current = true → t.isLink (current ++ [name]) = false) :
    t.descend follow current [name] =
      if t.hasFolder current then some (current ++ [name]) else none := by
  rw [descend_cons, hidle, if_neg hup]
  cases hfolder : t.hasFolder current with
  | false => rfl
  | true =>
    have hplain := hlink hfolder
    unfold isLink at hplain
    cases hat : t.at? (current ++ [name]) with
    | none => rfl
    | some node =>
      cases node with
      | link target => simp [hat] at hplain
      | folder => rfl
      | file bytes modified => rfl

/-- Below names that lead to a folder one more name leads one step further, if no link stands
there. -/
theorem descend_snoc {follow : Place → List String → Option Place}
    (hfollow : ∀ current names, (∀ place, follow current names = some place →
        t.hasFolder place = true → t.isLink (place ++ [name]) = false) →
      follow current (names ++ [name]) = (follow current names).bind fun place =>
        if t.hasFolder place then some (place ++ [name]) else none)
    {current : Place} {names : List String}
    (hlink : ∀ place, t.descend follow current names = some place →
      t.hasFolder place = true → t.isLink (place ++ [name]) = false) :
    t.descend follow current (names ++ [name]) = (t.descend follow current names).bind fun place =>
      if t.hasFolder place then some (place ++ [name]) else none := by
  induction names generalizing current with
  | nil =>
    have hnone : t.descend follow current [] = some current := rfl
    rw [List.nil_append, hnone, Option.bind_some]
    exact descend_one hidle hup (hlink current rfl)
  | cons next rest ih =>
    rw [List.cons_append, descend_cons, descend_cons]
    rw [descend_cons] at hlink
    by_cases hfolder : t.hasFolder current = true
    · rw [hfolder] at hlink ⊢
      by_cases hskip : Path.isIdle next = true
      · rw [hskip] at hlink ⊢
        exact ih hlink
      · rw [Bool.not_eq_true] at hskip
        rw [hskip] at hlink ⊢
        by_cases hparent : next = ".."
        · rw [if_pos hparent] at hlink ⊢
          rw [if_pos hparent]
          exact ih hlink
        · rw [if_neg hparent] at hlink ⊢
          rw [if_neg hparent]
          cases hat : t.at? (current ++ [next]) with
          | none =>
            have hmissing : t.hasFolder (current ++ [next]) = false := by simp [hasFolder, hat]
            by_cases hrest : rest = []
            · simp [hrest, hmissing]
            · simp [hrest]
          | some node =>
            cases node with
            | link target =>
              simp only [hat] at hlink ⊢
              have hnames : Path.names target ++ (rest ++ [name]) =
                  (Path.names target ++ rest) ++ [name] := (List.append_assoc _ _ _).symm
              rw [hnames]
              exact hfollow _ _ hlink
            | folder =>
              simp only [hat] at hlink
              exact ih hlink
            | file bytes modified =>
              simp only [hat] at hlink
              exact ih hlink
    · rw [Bool.not_eq_true] at hfolder
      rw [hfolder]
      rfl

theorem followLinks_snoc {budget : Nat} {current : Place} {names : List String}
    (hlink : ∀ place, t.followLinks budget current names = some place →
      t.hasFolder place = true → t.isLink (place ++ [name]) = false) :
    t.followLinks budget current (names ++ [name]) =
      (t.followLinks budget current names).bind fun place =>
        if t.hasFolder place then some (place ++ [name]) else none := by
  induction budget generalizing current names with
  | zero => exact descend_snoc hidle hup (fun _ _ _ => rfl) hlink
  | succ budget ih => exact descend_snoc hidle hup (fun _ _ h => ih h) hlink

omit hup in
theorem trimIdle_snoc (front : List String) : Path.trimIdle (front ++ [name]) = front ++ [name] := by
  simp [Path.trimIdle, hidle]

variable {path : String} {front : List String} (hnames : Path.names path = front ++ [name])

include hnames

theorem ownPlace?_eq : t.ownPlace? path =
    (t.followLinks linkLimit (if Path.isAbsolute path then [] else t.workingFolder) front).bind
      fun folder => if t.hasFolder folder then some (folder ++ [name]) else none := by
  unfold ownPlace?
  rw [hnames, trimIdle_snoc hidle]
  simp only [List.getLast?_append, List.getLast?_singleton, Option.some_or, List.dropLast_concat,
    Option.bind_eq_bind, Option.bind_some, decide_eq_false hup, Bool.false_or]
  congr 1
  funext folder
  cases t.hasFolder folder <;> rfl

/-- A path whose last name is no link leads to the place that it names. -/
theorem place?_eq_ownPlace? (hlink : ∀ place, t.ownPlace? path = some place → t.isLink place = false) :
    t.place? path = t.ownPlace? path := by
  have hpath : path ≠ "" := by
    rintro rfl
    have hempty : front ++ [name] = [] ++ [""] := hnames.symm
    obtain ⟨_, hname⟩ := List.append_inj' hempty rfl
    rw [(List.cons.inj hname).1] at hidle
    simp [Path.isIdle] at hidle
  have hown := ownPlace?_eq hidle hup hnames (t := t)
  rw [hown]
  unfold place?
  rw [if_neg hpath, hnames]
  refine followLinks_snoc hidle hup fun place hplace hfolder => hlink _ ?_
  rw [hown, hplace, Option.bind_some, if_pos hfolder]

/-- The place that a path names ends with its last name. -/
theorem getLast?_of_ownPlace? {place : Place} (h : t.ownPlace? path = some place) :
    place.getLast? = some name := by
  rw [ownPlace?_eq hidle hup hnames] at h
  obtain ⟨folder, _, hplace⟩ := Option.bind_eq_some_iff.mp h
  split at hplace
  · rw [← Option.some.inj hplace, List.getLast?_append]
    rfl
  · cases hplace

end

end FileTree

end ClassAtlas
