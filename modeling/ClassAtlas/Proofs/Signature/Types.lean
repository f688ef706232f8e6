-- Types of signatures. A reader with so many levels of type arguments takes exactly the
-- spellings of the types that are well formed with as many levels.
import ClassAtlas.Proofs.Signature.Steps
import ClassAtlas.Proofs.Signature.WellFormed

namespace ClassAtlas.Signature

/-! ## Names -/

/-- A text that can stand behind a name. -/
def EndsName (rest : List Char) : Prop := ∀ c ∈ rest.head?, endsName c = true

theorem takes_name {text rest : List Char} {n : String} :
    Takes name text n rest ↔ IsName n ∧ text = n.toList ++ rest ∧ EndsName rest := by
  constructor
  · intro h
    unfold Takes name at h
    have hall : (text.takeWhile fun c => !endsName c).all (fun c => !endsName c) = true :=
      List.all_takeWhile
    have hhead := List.head?_dropWhile_not (fun c => !endsName c) text
    have htext := List.takeWhile_append_dropWhile (p := fun c => !endsName c) (l := text)
    cases hfront : text.takeWhile (fun c => !endsName c) with
    | nil =>
      rw [hfront] at h
      cases h
    | cons d front =>
      rw [hfront] at h hall htext
      cases h
      refine ⟨⟨by simp, ?_⟩, by simpa using htext.symm, ?_⟩
      · intro c hc
        rw [String.toList_ofList] at hc
        simpa using List.all_eq_true.mp hall c hc
      · intro c hc
        rw [Option.mem_def] at hc
        simpa [hc] using hhead
  · rintro ⟨⟨hne, hall⟩, rfl, hends⟩
    have hname : ∀ c ∈ n.toList, (!endsName c) = true := fun c hc => by simp [hall c hc]
    have hfront : (n.toList ++ rest).takeWhile (fun c => !endsName c) = n.toList := by
      rw [List.takeWhile_append_of_pos hname]
      cases rest with
      | nil => simp
      | cons c more => simp [hends c rfl]
    have hback : (n.toList ++ rest).dropWhile (fun c => !endsName c) = rest := by
      rw [List.dropWhile_append_of_pos hname]
      cases rest with
      | nil => rfl
      | cons c more => simp [hends c rfl]
    unfold Takes name
    rw [hfront, hback]
    cases hlist : n.toList with
    | nil => exact absurd hlist hne
    | cons d front => simp [← hlist]

theorem takes_typeVariable {text rest : List Char} {n : String} :
    Takes typeVariable text n rest ↔ IsName n ∧ text = 'T' :: n.toList ++ ';' :: rest := by
  unfold typeVariable
  rw [takes_expect_bind]
  constructor
  · rintro ⟨more, rfl, h⟩
    obtain ⟨n', mid, hname, h⟩ := takes_bind.mp h
    obtain ⟨rest', rfl, h⟩ := takes_expect_bind.mp h
    obtain ⟨rfl, rfl⟩ := takes_pure.mp h
    obtain ⟨hn, rfl, _⟩ := takes_name.mp hname
    exact ⟨hn, rfl⟩
  · rintro ⟨hn, rfl⟩
    refine ⟨n.toList ++ ';' :: rest, rfl, takes_bind.mpr ⟨n, ';' :: rest, ?_, ?_⟩⟩
    · refine takes_name.mpr ⟨hn, rfl, ?_⟩
      rintro c ⟨⟩
      rfl
    · exact takes_expect_bind.mpr ⟨rest, rfl, takes_pure.mpr ⟨rfl, rfl⟩⟩

/-! ## Class types -/

theorem takes_packageStep_next {read next : List String} {text mid : List Char} :
    Takes (packageStep read) text (.inl next) mid ↔
      ∃ part, IsName part ∧ next = read ++ [part] ∧ text = (part.toList ++ ['/']) ++ mid := by
  unfold packageStep
  rw [takes_bind]
  constructor
  · rintro ⟨part, mid', hname, h⟩
    obtain ⟨c, more, rfl, h⟩ := takes_peek.mp h
    obtain ⟨hpart, rfl, _⟩ := takes_name.mp hname
    rcases takes_ite.mp h with ⟨rfl, h⟩ | ⟨_, h⟩
    · rw [takes_advance] at h
      obtain ⟨heq, rfl⟩ := takes_pure.mp h
      cases heq
      exact ⟨part, hpart, rfl, by simp⟩
    · cases (takes_pure.mp h).1
  · rintro ⟨part, hpart, rfl, rfl⟩
    refine ⟨part, '/' :: mid, takes_name.mpr ⟨hpart, by simp, ?_⟩, ?_⟩
    · rintro c ⟨⟩
      rfl
    · refine takes_peek.mpr ⟨'/', mid, rfl, ?_⟩
      rw [if_pos rfl, takes_advance]
      exact takes_pure.mpr ⟨rfl, rfl⟩

theorem takes_packageStep_done {read : List String} {b : List String × String}
    {text rest : List Char} : Takes (packageStep read) text (.inr b) rest ↔
      IsName b.2 ∧ b.1 = read ∧ text = b.2.toList ++ rest ∧
        ∃ c more, rest = c :: more ∧ endsName c = true ∧ c ≠ '/' := by
  unfold packageStep
  rw [takes_bind]
  constructor
  · rintro ⟨part, mid', hname, h⟩
    obtain ⟨c, more, rfl, h⟩ := takes_peek.mp h
    obtain ⟨hpart, rfl, hends⟩ := takes_name.mp hname
    rcases takes_ite.mp h with ⟨rfl, h⟩ | ⟨hc, h⟩
    · rw [takes_advance] at h
      cases (takes_pure.mp h).1
    · obtain ⟨heq, rfl⟩ := takes_pure.mp h
      cases heq
      exact ⟨hpart, rfl, rfl, c, more, rfl, hends c rfl, hc⟩
  · rintro ⟨hn, rfl, rfl, c, more, rfl, hends, hc⟩
    refine ⟨b.2, c :: more, takes_name.mpr ⟨hn, rfl, ?_⟩, takes_peek.mpr ⟨c, more, rfl, ?_⟩⟩
    · rintro d ⟨⟩
      exact hends
    · rw [if_neg hc]
      exact takes_pure.mpr ⟨rfl, rfl⟩

theorem takes_package {package : List String} {n : String} {text rest : List Char} :
    Takes (steps packageStep []) text (package, n) rest ↔
      (∀ part ∈ package, IsName part) ∧ IsName n ∧
        text = package.flatMap (fun part => part.toList ++ ['/']) ++ n.toList ++ rest ∧
          ∃ c more, rest = c :: more ∧ endsName c = true ∧ c ≠ '/' := by
  rw [takes_list (fun _ _ _ _ => takes_packageStep_next) (fun _ _ _ _ => takes_packageStep_done)
    (by simp)]
  constructor
  · rintro ⟨items, tail, hitems, rfl, hn, rfl, rfl, hrest⟩
    exact ⟨hitems, hn, by simp, hrest⟩
  · rintro ⟨hitems, hn, rfl, hrest⟩
    exact ⟨package, n.toList ++ rest, hitems, by simp, hn, rfl, rfl, hrest⟩

/-- The reader takes exactly the spellings of lists of arguments that are not empty and nest at
most `levels` deep. -/
def ArgumentsExact (levels : Nat) (reader : Parser (List TypeArgument)) : Prop :=
  ∀ text arguments rest, Takes reader text arguments rest ↔
    arguments ≠ [] ∧ ArgumentsWellFormed levels arguments ∧ text = spellArguments arguments ++ rest

section

variable {levels : Nat} {reader : Parser (List TypeArgument)}
  (hreader : ArgumentsExact levels reader)

include hreader

theorem takes_optionalArguments {arguments : List TypeArgument} {text rest : List Char} :
    Takes (optionalArguments reader) text arguments rest ↔
      ArgumentsWellFormed levels arguments ∧ text = spellArguments arguments ++ rest ∧
        (arguments = [] → ∃ c more, rest = c :: more ∧ c ≠ '<') := by
  unfold optionalArguments
  rw [takes_peek]
  constructor
  · rintro ⟨c, more, rfl, h⟩
    rcases takes_ite.mp h with ⟨rfl, h⟩ | ⟨hc, h⟩
    · obtain ⟨hne, hfits, htext⟩ := (hreader _ _ _).mp h
      exact ⟨hfits, htext, fun hnil => absurd hnil hne⟩
    · obtain ⟨rfl, rfl⟩ := takes_pure.mp h
      exact ⟨trivial, rfl, fun _ => ⟨c, more, rfl, hc⟩⟩
  · rintro ⟨hfits, rfl, hnil⟩
    cases arguments with
    | nil =>
      obtain ⟨c, more, rfl, hc⟩ := hnil rfl
      refine ⟨c, more, rfl, ?_⟩
      rw [if_neg hc]
      exact takes_pure.mpr ⟨rfl, rfl⟩
    | cons a others =>
      refine ⟨'<', a.spell ++ spellEach others ++ ['>'] ++ rest, rfl, ?_⟩
      rw [if_pos rfl]
      exact (hreader _ _ _).mpr ⟨by simp, hfits, rfl⟩

omit hreader

/-- An inner level of a class type: a name with its arguments. -/
def spellLevel (level : String × List TypeArgument) : List Char :=
  '.' :: level.1.toList ++ spellArguments level.2

def putLevel (enclosing : ClassType) (level : String × List TypeArgument) : ClassType :=
  .inner enclosing level.1 level.2

/-- An inner level may stand here. Without arguments it must not run into what follows. -/
def LevelFits (levels : Nat) (level : String × List TypeArgument) (mid : List Char) : Prop :=
  IsName level.1 ∧ ArgumentsWellFormed levels level.2 ∧
    (level.2 = [] → ∃ c more, mid = c :: more ∧ endsName c = true ∧ c ≠ '/' ∧ c ≠ '<')

include hreader in
theorem takes_innerStep_next {enclosing next : ClassType} {text mid : List Char} :
    Takes (innerStep reader enclosing) text (.inl next) mid ↔
      ∃ level, LevelFits levels level mid ∧ next = putLevel enclosing level ∧
        text = spellLevel level ++ mid := by
  unfold innerStep
  rw [takes_peek]
  constructor
  · rintro ⟨c, more, rfl, h⟩
    split at h
    · rw [takes_advance] at h
      obtain ⟨n, mid', hname, hbehind⟩ := takes_bind.mp h
      obtain ⟨d, more, rfl, hbranch⟩ := takes_peek.mp hbehind
      obtain ⟨hn, rfl, hends⟩ := takes_name.mp hname
      rcases takes_ite.mp hbranch with ⟨_, hstop⟩ | ⟨hd, hlevel⟩
      · exact absurd hstop not_takes_unexpected
      · obtain ⟨arguments, mid', harguments, hput⟩ := takes_bind.mp hlevel
        obtain ⟨heq, rfl⟩ := takes_pure.mp hput
        cases heq
        obtain ⟨hfits, htext, hnil⟩ := (takes_optionalArguments hreader).mp harguments
        refine ⟨(n, arguments), ⟨hn, hfits, ?_⟩, rfl, by simp [spellLevel, htext]⟩
        rintro rfl
        obtain ⟨e, more', rfl, he⟩ := hnil rfl
        cases htext
        exact ⟨d, more, rfl, hends d rfl, hd, he⟩
    · rw [takes_advance] at h
      cases (takes_pure.mp h).1
    · exact absurd h not_takes_unexpected
  · rintro ⟨⟨n, arguments⟩, ⟨hn, hfits, hnil⟩, rfl, rfl⟩
    refine ⟨'.', n.toList ++ (spellArguments arguments ++ mid), by simp [spellLevel], ?_⟩
    have hhead : ∃ d more, spellArguments arguments ++ mid = d :: more ∧
        endsName d = true ∧ d ≠ '/' := by
      cases arguments with
      | nil =>
        obtain ⟨c, more, rfl, hends, hslash, _⟩ := hnil rfl
        exact ⟨c, more, rfl, hends, hslash⟩
      | cons a others => exact ⟨'<', _, rfl, rfl, by decide⟩
    obtain ⟨d, more, hd, hends, hslash⟩ := hhead
    have htext : spellLevel (n, arguments) ++ mid = '.' :: (n.toList ++ (d :: more)) := by
      simp [spellLevel, ← hd]
    rw [htext]
    refine takes_advance.mpr (takes_bind.mpr ⟨n, d :: more, takes_name.mpr ⟨hn, rfl, ?_⟩, ?_⟩)
    · rintro c ⟨⟩
      exact hends
    · refine takes_peek.mpr ⟨d, more, rfl, ?_⟩
      rw [if_neg hslash]
      refine takes_bind.mpr ⟨arguments, mid, ?_, takes_pure.mpr ⟨rfl, rfl⟩⟩
      refine (takes_optionalArguments hreader).mpr ⟨hfits, hd.symm, fun heq => ?_⟩
      obtain ⟨c, more, hmid, _, _, hc⟩ := hnil heq
      exact ⟨c, more, hmid, hc⟩

theorem takes_innerStep_done {enclosing c : ClassType} {text rest : List Char} :
    Takes (innerStep reader enclosing) text (.inr c) rest ↔ c = enclosing ∧ text = ';' :: rest := by
  unfold innerStep
  rw [takes_peek]
  constructor
  · rintro ⟨d, more, rfl, h⟩
    split at h
    · rw [takes_advance] at h
      obtain ⟨n, mid, _, h⟩ := takes_bind.mp h
      obtain ⟨d, more, rfl, h⟩ := takes_peek.mp h
      rcases takes_ite.mp h with ⟨_, h⟩ | ⟨_, h⟩
      · exact absurd h not_takes_unexpected
      · obtain ⟨arguments, mid, _, h⟩ := takes_bind.mp h
        cases (takes_pure.mp h).1
    · rw [takes_advance] at h
      obtain ⟨heq, rfl⟩ := takes_pure.mp h
      cases heq
      exact ⟨rfl, rfl⟩
    · exact absurd h not_takes_unexpected
  · rintro ⟨rfl, rfl⟩
    exact ⟨';', rest, rfl, takes_advance.mpr (takes_pure.mpr ⟨rfl, rfl⟩)⟩

/-- Every class type is one of a package with inner levels put around it. -/
theorem exists_foldl_putLevel : ∀ c : ClassType, ∃ package name arguments,
    ∃ inner : List (String × List TypeArgument),
      c = inner.foldl putLevel (.topLevel package name arguments)
  | .topLevel package name arguments => ⟨package, name, arguments, [], rfl⟩
  | .inner enclosing name arguments => by
    obtain ⟨package, outer, outerArguments, inner, hc⟩ := exists_foldl_putLevel enclosing
    refine ⟨package, outer, outerArguments, inner ++ [(name, arguments)], ?_⟩
    rw [List.foldl_append, ← hc]
    rfl

theorem spellOpen_foldl (inner : List (String × List TypeArgument)) (c : ClassType) :
    (inner.foldl putLevel c).spellOpen = c.spellOpen ++ inner.flatMap spellLevel := by
  induction inner generalizing c with
  | nil => simp
  | cons level inner ih => simp [ih, putLevel, spellLevel, ClassType.spellOpen]

theorem wellFormed_foldl (inner : List (String × List TypeArgument)) (c : ClassType) :
    (inner.foldl putLevel c).WellFormed levels ↔ c.WellFormed levels ∧
      ∀ level ∈ inner, IsName level.1 ∧ ArgumentsWellFormed levels level.2 := by
  induction inner generalizing c with
  | nil => simp
  | cons level inner ih => simp [ih, putLevel, ClassType.WellFormed, and_assoc]

/-- Behind an inner level stands a dot or the end of the class type. -/
theorem head_levels (inner : List (String × List TypeArgument)) (rest : List Char) :
    ∃ c more, inner.flatMap spellLevel ++ ';' :: rest = c :: more ∧ (c = '.' ∨ c = ';') := by
  cases inner with
  | nil => exact ⟨';', rest, rfl, Or.inr rfl⟩
  | cons level inner =>
    exact ⟨'.', level.1.toList ++ spellArguments level.2 ++ inner.flatMap spellLevel ++ ';' :: rest,
      by simp [spellLevel], Or.inl rfl⟩

theorem chain_levels {inner : List (String × List TypeArgument)} {rest : List Char} :
    Chain spellLevel (LevelFits levels) inner (';' :: rest) ↔
      ∀ level ∈ inner, IsName level.1 ∧ ArgumentsWellFormed levels level.2 := by
  induction inner with
  | nil => simp [Chain]
  | cons level inner ih =>
    obtain ⟨c, more, hhead, hc⟩ := head_levels inner rest
    have hends : endsName c = true ∧ c ≠ '/' ∧ c ≠ '<' := by
      rcases hc with rfl | rfl <;> decide
    rw [Chain, ih, List.forall_mem_cons]
    constructor
    · rintro ⟨⟨hname, hfits, _⟩, hrest⟩
      exact ⟨⟨hname, hfits⟩, hrest⟩
    · rintro ⟨⟨hname, hfits⟩, hrest⟩
      exact ⟨⟨hname, hfits, fun _ => ⟨c, more, hhead, hends⟩⟩, hrest⟩

include hreader

theorem takes_inner {c enclosing : ClassType} {text rest : List Char} :
    Takes (steps (innerStep reader) enclosing) text c rest ↔
      ∃ inner : List (String × List TypeArgument),
        (∀ level ∈ inner, IsName level.1 ∧ ArgumentsWellFormed levels level.2) ∧
          text = inner.flatMap spellLevel ++ ';' :: rest ∧ c = inner.foldl putLevel enclosing := by
  rw [takes_steps (fun _ _ _ _ => takes_innerStep_next hreader)
    (fun _ _ _ _ => takes_innerStep_done)
    (fun level _ _ => by simp [spellLevel])]
  constructor
  · rintro ⟨inner, tail, hchain, rfl, rfl, rfl⟩
    exact ⟨inner, chain_levels.mp hchain, rfl, rfl⟩
  · rintro ⟨inner, hinner, rfl, rfl⟩
    exact ⟨inner, ';' :: rest, chain_levels.mpr hinner, rfl, rfl, rfl⟩

theorem reads_classTypeWith :
    Reads (classTypeWith reader) (ClassType.WellFormed levels) ClassType.spell := by
  intro text c rest
  unfold classTypeWith
  rw [takes_expect_bind]
  constructor
  · rintro ⟨more, rfl, h⟩
    obtain ⟨⟨package, n⟩, mid, hpackage, h⟩ := takes_bind.mp h
    obtain ⟨arguments, mid', harguments, hlevels⟩ := takes_bind.mp h
    obtain ⟨inner, hinner, rfl, rfl⟩ := (takes_inner hreader).mp hlevels
    obtain ⟨hfits, rfl, _⟩ := (takes_optionalArguments hreader).mp harguments
    obtain ⟨hparts, hn, rfl, _⟩ := takes_package.mp hpackage
    refine ⟨(wellFormed_foldl inner _).mpr ⟨⟨hparts, hn, hfits⟩, hinner⟩, ?_⟩
    simp [ClassType.spell, spellOpen_foldl, ClassType.spellOpen]
  · rintro ⟨hfits, rfl⟩
    obtain ⟨package, n, arguments, inner, rfl⟩ := exists_foldl_putLevel c
    obtain ⟨⟨hparts, hn, harguments⟩, hinner⟩ := (wellFormed_foldl inner _).mp hfits
    obtain ⟨d, more, hhead, hd⟩ := head_levels inner rest
    have hends : endsName d = true ∧ d ≠ '/' ∧ d ≠ '<' := by
      rcases hd with rfl | rfl <;> decide
    refine ⟨package.flatMap (fun part => part.toList ++ ['/']) ++ n.toList ++
      (spellArguments arguments ++ (inner.flatMap spellLevel ++ ';' :: rest)), ?_, ?_⟩
    · simp [ClassType.spell, spellOpen_foldl, ClassType.spellOpen]
    · refine takes_bind.mpr ⟨(package, n), spellArguments arguments ++ (inner.flatMap spellLevel ++
        ';' :: rest), takes_package.mpr ⟨hparts, hn, rfl, ?_⟩, ?_⟩
      · cases arguments with
        | nil => exact ⟨d, more, hhead, hends.1, hends.2.1⟩
        | cons a others => exact ⟨'<', _, rfl, rfl, by decide⟩
      · refine takes_bind.mpr ⟨arguments, inner.flatMap spellLevel ++ ';' :: rest, ?_, ?_⟩
        · exact (takes_optionalArguments hreader).mpr
            ⟨harguments, rfl, fun _ => ⟨d, more, hhead, hends.2.2⟩⟩
        · exact (takes_inner hreader).mpr ⟨inner, hinner, rfl, rfl⟩

omit hreader

/-! ## Reference types -/

theorem head_classType (c : ClassType) : ∃ more, c.spell = 'L' :: more := by
  obtain ⟨package, n, arguments, inner, rfl⟩ := exists_foldl_putLevel c
  simp [ClassType.spell, spellOpen_foldl, ClassType.spellOpen]

/-- A type that is no array. -/
def IsPlainReference : ReferenceType → Prop
  | .array _ => False
  | _ => True

def IsPlain : ValueType → Prop
  | .base _ => True
  | .reference r => IsPlainReference r

theorem head_plainReference {r : ReferenceType} (h : IsPlainReference r) :
    ∃ c more, r.spell = c :: more ∧ (c = 'L' ∨ c = 'T') := by
  cases r with
  | classType c =>
    obtain ⟨more, hc⟩ := head_classType c
    exact ⟨'L', more, hc, Or.inl rfl⟩
  | typeVariable n => exact ⟨'T', n.toList ++ [';'], rfl, Or.inr rfl⟩
  | array element => exact h.elim

theorem head_reference (r : ReferenceType) :
    ∃ c more, r.spell = c :: more ∧ (c = 'L' ∨ c = 'T' ∨ c = '[') := by
  cases r with
  | array element => exact ⟨'[', element.spell, rfl, Or.inr (Or.inr rfl)⟩
  | classType c =>
    obtain ⟨d, more, hd, hhead⟩ := head_plainReference (r := .classType c) trivial
    exact ⟨d, more, hd, hhead.imp_right Or.inl⟩
  | typeVariable n =>
    obtain ⟨d, more, hd, hhead⟩ := head_plainReference (r := .typeVariable n) trivial
    exact ⟨d, more, hd, hhead.imp_right Or.inl⟩

include hreader in
theorem takes_plainReference {r : ReferenceType} {text rest : List Char} :
    Takes (plainReference reader) text r rest ↔
      IsPlainReference r ∧ r.WellFormed levels ∧ text = r.spell ++ rest := by
  unfold plainReference
  rw [takes_peek]
  constructor
  · rintro ⟨c, more, rfl, h⟩
    split at h
    · obtain ⟨d, mid, hclass, hput⟩ := takes_bind.mp h
      obtain ⟨rfl, rfl⟩ := takes_pure.mp hput
      obtain ⟨hfits, htext⟩ := (reads_classTypeWith hreader _ _ _).mp hclass
      exact ⟨trivial, hfits, htext⟩
    · obtain ⟨n, mid, hvariable, hput⟩ := takes_bind.mp h
      obtain ⟨rfl, rfl⟩ := takes_pure.mp hput
      obtain ⟨hn, htext⟩ := takes_typeVariable.mp hvariable
      exact ⟨trivial, hn, by simp [ReferenceType.spell, htext]⟩
    · exact absurd h not_takes_unexpected
  · rintro ⟨hplain, hfits, rfl⟩
    cases r with
    | classType c =>
      obtain ⟨more, hc⟩ := head_classType c
      have htext : (ReferenceType.classType c).spell ++ rest = 'L' :: (more ++ rest) := by
        show c.spell ++ rest = _
        rw [hc]
        rfl
      refine ⟨'L', more ++ rest, htext, takes_bind.mpr ⟨c, rest, ?_, takes_pure.mpr ⟨rfl, rfl⟩⟩⟩
      exact (reads_classTypeWith hreader _ _ _).mpr ⟨hfits, rfl⟩
    | typeVariable n =>
      refine ⟨'T', n.toList ++ [';'] ++ rest, by simp [ReferenceType.spell],
        takes_bind.mpr ⟨n, rest, ?_, takes_pure.mpr ⟨rfl, rfl⟩⟩⟩
      exact takes_typeVariable.mpr ⟨hfits, by simp [ReferenceType.spell]⟩
    | array element => exact hplain.elim

theorem ofCode?_code (b : BaseType) : BaseType.ofCode? b.code = some b := by
  cases b <;> rfl

theorem code_of_ofCode? {c : Char} {b : BaseType} (h : BaseType.ofCode? c = some b) :
    c = b.code := by
  unfold BaseType.ofCode? at h
  split at h <;> cases h <;> rfl

/-- A reader of primitive types and of what `other` reads. -/
theorem takes_baseOr {other : Parser ReferenceType} {fits : ReferenceType → Prop}
    (hother : Reads other fits ReferenceType.spell)
    {t : ValueType} {text rest : List Char} :
    Takes (baseOr other) text t rest ↔
      (∀ r, t = .reference r → fits r) ∧ text = t.spell ++ rest := by
  unfold baseOr
  rw [takes_peek]
  constructor
  · rintro ⟨c, more, rfl, h⟩
    cases hcode : BaseType.ofCode? c with
    | some b =>
      simp only [hcode] at h
      rw [takes_advance] at h
      obtain ⟨rfl, rfl⟩ := takes_pure.mp h
      rw [code_of_ofCode? hcode]
      exact ⟨by simp, rfl⟩
    | none =>
      simp only [hcode] at h
      obtain ⟨r, mid, hr, hput⟩ := takes_bind.mp h
      obtain ⟨rfl, rfl⟩ := takes_pure.mp hput
      obtain ⟨hfits, htext⟩ := (hother _ _ _).mp hr
      refine ⟨?_, htext⟩
      rintro r' ⟨⟩
      exact hfits
  · rintro ⟨hfits, rfl⟩
    cases t with
    | base b =>
      refine ⟨b.code, rest, rfl, ?_⟩
      simp only [ofCode?_code]
      exact takes_advance.mpr (takes_pure.mpr ⟨rfl, rfl⟩)
    | reference r =>
      obtain ⟨c, more, hhead, hc⟩ := head_reference r
      have hcode : BaseType.ofCode? c = none := by
        rcases hc with rfl | rfl | rfl <;> rfl
      refine ⟨c, more ++ rest, by simp [ValueType.spell, hhead], ?_⟩
      simp only [hcode]
      refine takes_bind.mpr ⟨r, rest, ?_, takes_pure.mpr ⟨rfl, rfl⟩⟩
      exact (hother _ _ _).mpr ⟨hfits r rfl, rfl⟩

include hreader in
theorem takes_plainType {t : ValueType} {text rest : List Char} :
    Takes (plainType reader) text t rest ↔
      IsPlain t ∧ t.WellFormed levels ∧ text = t.spell ++ rest := by
  have hplain : Reads (plainReference reader)
      (fun r => IsPlainReference r ∧ r.WellFormed levels) ReferenceType.spell := by
    intro text r rest
    rw [takes_plainReference hreader, and_assoc]
  unfold plainType
  rw [takes_baseOr hplain]
  cases t with
  | base b => simp [IsPlain, ValueType.WellFormed]
  | reference r => simp [IsPlain, ValueType.WellFormed, and_assoc]

/-! ## Arrays -/

theorem takes_brackets {n : Nat} {text rest : List Char} :
    Takes brackets text n rest ↔ text = List.replicate n '[' ++ rest ∧ rest.head? ≠ some '[' := by
  constructor
  · intro h
    cases h
    have hfront :
        text.takeWhile (· = '[') = List.replicate (text.takeWhile (· = '[')).length '[' := by
      refine List.eq_replicate_of_mem fun c hc => ?_
      simpa using List.all_eq_true.mp List.all_takeWhile c hc
    refine ⟨?_, ?_⟩
    · rw [← hfront, List.takeWhile_append_dropWhile]
    · have hhead := List.head?_dropWhile_not (fun c => decide (c = '[')) text
      intro heq
      simp [heq] at hhead
  · rintro ⟨rfl, hrest⟩
    have hall : ∀ c ∈ List.replicate n '[', decide (c = '[') = true := by
      intro c hc
      simpa using (List.mem_replicate.mp hc).2
    have hstop : rest.takeWhile (· = '[') = [] ∧ rest.dropWhile (· = '[') = rest := by
      cases rest with
      | nil => exact ⟨rfl, rfl⟩
      | cons c more =>
        have hc : c ≠ '[' := by simpa using hrest
        simp [hc]
    unfold Takes brackets
    rw [List.takeWhile_append_of_pos hall, List.dropWhile_append_of_pos hall, hstop.1, hstop.2]
    simp

/-- Every type is an array of as many dimensions of a type that is no array. -/
theorem exists_arrayOf : ∀ t : ValueType, ∃ dimensions plain,
    IsPlain plain ∧ t = arrayOf dimensions plain
  | .base b => ⟨0, .base b, trivial, rfl⟩
  | .reference (.classType c) => ⟨0, .reference (.classType c), trivial, rfl⟩
  | .reference (.typeVariable n) => ⟨0, .reference (.typeVariable n), trivial, rfl⟩
  | .reference (.array element) => by
    obtain ⟨dimensions, plain, hplain, helement⟩ := exists_arrayOf element
    exact ⟨dimensions + 1, plain, hplain, by rw [arrayOf, ← helement]⟩

theorem spell_arrayOf (dimensions : Nat) (t : ValueType) :
    (arrayOf dimensions t).spell = List.replicate dimensions '[' ++ t.spell := by
  induction dimensions with
  | zero => rfl
  | succ dimensions ih =>
    rw [arrayOf, ValueType.spell, ReferenceType.spell, ih]
    rfl

theorem wellFormed_arrayOf (dimensions : Nat) (t : ValueType) :
    (arrayOf dimensions t).WellFormed levels ↔ t.WellFormed levels := by
  induction dimensions with
  | zero => rfl
  | succ dimensions ih => rw [arrayOf, ValueType.WellFormed, ReferenceType.WellFormed, ih]

theorem head_plain {t : ValueType} (h : IsPlain t) (rest : List Char) :
    (t.spell ++ rest).head? ≠ some '[' := by
  cases t with
  | base b => cases b <;> simp [ValueType.spell, BaseType.code]
  | reference r =>
    obtain ⟨c, more, hhead, hc⟩ := head_plainReference h
    rw [ValueType.spell, hhead]
    rcases hc with rfl | rfl <;> simp

include hreader in
theorem reads_referenceWith :
    Reads (referenceWith reader) (ReferenceType.WellFormed levels) ReferenceType.spell := by
  intro text r rest
  unfold referenceWith
  rw [takes_bind]
  constructor
  · rintro ⟨n, mid, hbrackets, h⟩
    obtain ⟨rfl, _⟩ := takes_brackets.mp hbrackets
    cases n with
    | zero =>
      obtain ⟨_, hfits, rfl⟩ := (takes_plainReference hreader).mp h
      exact ⟨hfits, rfl⟩
    | succ dimensions =>
      obtain ⟨plain, mid', htype, hput⟩ := takes_bind.mp h
      obtain ⟨rfl, rfl⟩ := takes_pure.mp hput
      obtain ⟨_, hfits, rfl⟩ := (takes_plainType hreader).mp htype
      refine ⟨(wellFormed_arrayOf dimensions plain).mpr hfits, ?_⟩
      rw [ReferenceType.spell, spell_arrayOf, List.replicate_succ]
      simp
  · rintro ⟨hfits, rfl⟩
    obtain ⟨n, plain, hplain, hr⟩ := exists_arrayOf (.reference r)
    cases n with
    | zero =>
      obtain rfl : ValueType.reference r = plain := hr
      exact ⟨0, r.spell ++ rest, takes_brackets.mpr ⟨rfl, head_plain hplain rest⟩,
        (takes_plainReference hreader).mpr ⟨hplain, hfits, rfl⟩⟩
    | succ dimensions =>
      cases hr
      refine ⟨dimensions + 1, plain.spell ++ rest,
        takes_brackets.mpr ⟨?_, head_plain hplain rest⟩, takes_bind.mpr ⟨plain, rest, ?_, ?_⟩⟩
      · rw [ReferenceType.spell, spell_arrayOf, List.replicate_succ]
        simp
      · exact (takes_plainType hreader).mpr ⟨hplain, (wellFormed_arrayOf _ _).mp hfits, rfl⟩
      · exact takes_pure.mpr ⟨rfl, rfl⟩

/-! ## Type arguments -/

/-- A reader of one argument with a sign for its bound, if `reference` reads what is behind it. -/
theorem takes_argumentStep_next {reference : Parser ReferenceType}
    (hreference : Reads reference (ReferenceType.WellFormed levels) ReferenceType.spell)
    {read next : List TypeArgument} {text mid : List Char} :
    Takes (argumentStep reference read) text (.inl next) mid ↔
      ∃ a, a.WellFormed levels ∧ next = read ++ [a] ∧ text = a.spell ++ mid := by
  unfold argumentStep
  rw [takes_peek]
  constructor
  · rintro ⟨c, more, rfl, h⟩
    rcases takes_ite.mp h with ⟨_, h⟩ | ⟨_, h⟩
    · rw [takes_advance] at h
      cases (takes_pure.mp h).1
    rcases takes_ite.mp h with ⟨rfl, h⟩ | ⟨_, h⟩
    · rw [takes_advance] at h
      obtain ⟨heq, rfl⟩ := takes_pure.mp h
      cases heq
      exact ⟨.any, trivial, rfl, rfl⟩
    rcases takes_ite.mp h with ⟨rfl, h⟩ | ⟨_, h⟩
    · rw [takes_advance] at h
      obtain ⟨r, hfits, rfl, rfl⟩ := (takes_put hreference).mp h
      exact ⟨.of .upper r, hfits, rfl, rfl⟩
    rcases takes_ite.mp h with ⟨rfl, h⟩ | ⟨_, h⟩
    · rw [takes_advance] at h
      obtain ⟨r, hfits, rfl, rfl⟩ := (takes_put hreference).mp h
      exact ⟨.of .lower r, hfits, rfl, rfl⟩
    · obtain ⟨r, hfits, rfl, htext⟩ := (takes_put hreference).mp h
      exact ⟨.of .exactly r, hfits, rfl, htext⟩
  · rintro ⟨a, hfits, rfl, rfl⟩
    cases a with
    | any => exact ⟨'*', mid, rfl, takes_advance.mpr (takes_pure.mpr ⟨rfl, rfl⟩)⟩
    | of bound r =>
      cases bound with
      | upper =>
        refine ⟨'+', r.spell ++ mid, rfl, takes_advance.mpr ?_⟩
        exact (takes_put hreference).mpr ⟨r, hfits, rfl, rfl⟩
      | lower =>
        refine ⟨'-', r.spell ++ mid, rfl, takes_advance.mpr ?_⟩
        exact (takes_put hreference).mpr ⟨r, hfits, rfl, rfl⟩
      | exactly =>
        obtain ⟨c, more, hhead, hc⟩ := head_reference r
        have hsign : c ≠ '>' ∧ c ≠ '*' ∧ c ≠ '+' ∧ c ≠ '-' := by
          rcases hc with rfl | rfl | rfl <;> decide
        obtain ⟨hclose, hany, hupper, hlower⟩ := hsign
        refine ⟨c, more ++ mid, by rw [TypeArgument.spell, hhead]; rfl, ?_⟩
        rw [if_neg (fun h => hclose h.1), if_neg hany, if_neg hupper, if_neg hlower]
        exact (takes_put hreference).mpr ⟨r, hfits, rfl, rfl⟩

theorem takes_argumentStep_done {reference : Parser ReferenceType}
    {read arguments : List TypeArgument} {text rest : List Char} :
    Takes (argumentStep reference read) text (.inr arguments) rest ↔
      read ≠ [] ∧ arguments = read ∧ text = '>' :: rest := by
  unfold argumentStep
  rw [takes_peek]
  constructor
  · rintro ⟨c, more, rfl, h⟩
    rcases takes_ite.mp h with ⟨⟨rfl, hread⟩, h⟩ | ⟨_, h⟩
    · rw [takes_advance] at h
      obtain ⟨heq, rfl⟩ := takes_pure.mp h
      cases heq
      exact ⟨by simpa using hread, rfl, rfl⟩
    -- All other branches go on with a longer list.
    rcases takes_ite.mp h with ⟨rfl, h⟩ | ⟨_, h⟩
    · rw [takes_advance] at h
      cases (takes_pure.mp h).1
    rcases takes_ite.mp h with ⟨rfl, h⟩ | ⟨_, h⟩
    · rw [takes_advance] at h
      exact absurd h not_takes_put
    rcases takes_ite.mp h with ⟨rfl, h⟩ | ⟨_, h⟩
    · rw [takes_advance] at h
      exact absurd h not_takes_put
    · exact absurd h not_takes_put
  · rintro ⟨hread, rfl, rfl⟩
    refine ⟨'>', rest, rfl, ?_⟩
    rw [if_pos ⟨rfl, by simpa using hread⟩]
    exact takes_advance.mpr (takes_pure.mpr ⟨rfl, rfl⟩)

theorem spellEach_eq_flatMap (arguments : List TypeArgument) :
    spellEach arguments = arguments.flatMap TypeArgument.spell := by
  induction arguments with
  | nil => rfl
  | cons a rest ih => rw [spellEach, ih, List.flatMap_cons]

theorem argumentsWellFormed_succ {arguments : List TypeArgument} :
    ArgumentsWellFormed (levels + 1) arguments ↔ ∀ a ∈ arguments, a.WellFormed levels := by
  induction arguments with
  | nil => simp [ArgumentsWellFormed]
  | cons a rest ih => simp [ArgumentsWellFormed, ih]

theorem spell_ne_nil (a : TypeArgument) : a.spell ≠ [] := by
  cases a with
  | any => simp [TypeArgument.spell]
  | of bound r =>
    obtain ⟨c, more, hhead, _⟩ := head_reference r
    cases bound <;> simp [TypeArgument.spell, hhead]

end

/-- By induction on the levels: a list of arguments uses one, and its items the others. -/
theorem arguments_exact (levels : Nat) : ArgumentsExact levels (arguments levels) := by
  induction levels with
  | zero =>
    intro text arguments rest
    rw [Signature.arguments, takes_expect_bind]
    constructor
    · rintro ⟨more, _, h⟩
      exact absurd h not_takes_stop
    · rintro ⟨hne, hfits, _⟩
      cases arguments with
      | nil => exact absurd rfl hne
      | cons a rest => exact absurd hfits.1 (Nat.lt_irrefl 0)
  | succ levels ih =>
    intro text arguments rest
    have hreference : Reads (referenceWith (Signature.arguments levels))
        (ReferenceType.WellFormed levels) ReferenceType.spell := reads_referenceWith ih
    rw [Signature.arguments, takes_expect_bind, argumentsWellFormed_succ]
    simp only [takes_list (fun _ _ _ _ => takes_argumentStep_next hreference)
      (fun _ _ _ _ => takes_argumentStep_done) spell_ne_nil]
    constructor
    · rintro ⟨more, rfl, items, tail, hitems, rfl, hne, rfl, rfl⟩
      refine ⟨hne, hitems, ?_⟩
      cases arguments with
      | nil => exact absurd rfl hne
      | cons a others => simp [spellArguments, spellEach_eq_flatMap]
    · rintro ⟨hne, hitems, rfl⟩
      refine ⟨arguments.flatMap TypeArgument.spell ++ '>' :: rest, ?_, arguments, '>' :: rest,
        hitems, rfl, hne, rfl, rfl⟩
      cases arguments with
      | nil => exact absurd rfl hne
      | cons a others => simp [spellArguments, spellEach_eq_flatMap]

/-! ## Types with as many levels as a signature may have -/

theorem reads_reference :
    Reads reference (ReferenceType.WellFormed maxNesting) ReferenceType.spell :=
  reads_referenceWith (arguments_exact maxNesting)

theorem reads_classType : Reads classType (ClassType.WellFormed maxNesting) ClassType.spell :=
  reads_classTypeWith (arguments_exact maxNesting)

theorem reads_valueType : Reads valueType (ValueType.WellFormed maxNesting) ValueType.spell := by
  intro text t rest
  unfold valueType
  rw [takes_baseOr reads_reference]
  cases t with
  | base b => simp [ValueType.WellFormed]
  | reference r => simp [ValueType.WellFormed]

end ClassAtlas.Signature
