-- The classes that a signature names, read off its text. A class type begins with an `L` outside
-- of all names and ends with the semicolon behind it, and its name is what stands between them
-- without the type arguments. The names of a signature are these, in the order of the text.
import ClassAtlas.Proofs.Signature.Declarations

namespace ClassAtlas.Signature

/-! ## Names in texts -/

/-- How many angle brackets are open behind a character. -/
def depthBehind (c : Char) (depth : Nat) : Nat :=
  if c = '<' then depth + 1 else if c = '>' then depth - 1 else depth

/-- A text without its parts in angle brackets, at any depth, when `depth` brackets are open. -/
def withoutArguments : Nat → List Char → List Char
  | _, [] => []
  | depth, c :: rest =>
    if depth = 0 ∧ c ≠ '<' then c :: withoutArguments 0 rest
    else withoutArguments (depthBehind c depth) rest

/-- What stands in a binary name for a character of a signature: a dollar sign before an inner
class and a dot behind a package. -/
def nameChar (c : Char) : Char := if c = '.' then '$' else if c = '/' then '.' else c

/-- The binary name that the text of a class type spells, given without its `L` and its
semicolon. -/
def nameOfText (inside : List Char) : List Char := (withoutArguments 0 inside).map nameChar

/-- The front of a text up to the first semicolon that no angle brackets enclose. -/
def untilSemicolon : Nat → List Char → List Char
  | _, [] => []
  | depth, c :: rest =>
    if depth = 0 ∧ c = ';' then [] else c :: untilSemicolon (depthBehind c depth) rest

/-- Whether a word ends with a colon, as the name of a type parameter does. -/
def endsWithColon (text : List Char) : Bool :=
  (text.dropWhile fun c => !endsName c).head? = some ':'

/-- The texts of all class types in a text, without their `L` and their semicolon, in the order
in which they begin. `inName` tells whether the text goes on with the rest of a name. -/
def classTexts : Bool → List Char → List (List Char)
  | _, [] => []
  | true, c :: rest => classTexts (c ∉ [';', '<', ':']) rest
  | false, c :: rest =>
    if c = 'L' ∧ !endsWithColon rest then untilSemicolon 0 rest :: classTexts true rest
    else classTexts (c ∈ ['L', 'T', '.']) rest

/-- The names of all classes in the text of a signature. -/
def namesIn (text : String) : List String :=
  (classTexts false text.toList).map fun inside => String.ofList (nameOfText inside)

/-! ## Brackets that are closed -/

/-- A text that closes all angle brackets that it opens. -/
inductive Balanced : List Char → Prop
  | nil : Balanced []
  | char {c : Char} {rest : List Char} : c ≠ '<' → c ≠ '>' → Balanced rest → Balanced (c :: rest)
  | angle {inside rest : List Char} :
      Balanced inside → Balanced rest → Balanced ('<' :: inside ++ '>' :: rest)

theorem Balanced.append {front back : List Char} (hfront : Balanced front)
    (hback : Balanced back) : Balanced (front ++ back) := by
  induction hfront with
  | nil => exact hback
  | char hopen hclose _ ih => exact .char hopen hclose ih
  | @angle inside rest hinside _ _ ih =>
    have h := Balanced.angle hinside ih
    simpa using h

theorem Balanced.snoc {front : List Char} {c : Char} (h : Balanced front) (hopen : c ≠ '<')
    (hclose : c ≠ '>') : Balanced (front ++ [c]) := h.append (.char hopen hclose .nil)

theorem withoutArguments_balanced {text : List Char} (h : Balanced text) (depth : Nat)
    (rest : List Char) :
    withoutArguments (depth + 1) (text ++ rest) = withoutArguments (depth + 1) rest := by
  induction h generalizing depth rest with
  | nil => rfl
  | char hopen hclose _ ih => simp [withoutArguments, depthBehind, hopen, hclose, ih]
  | angle _ _ ihInside ihRest => simp [withoutArguments, depthBehind, ihInside, ihRest]

theorem untilSemicolon_balanced {text : List Char} (h : Balanced text) (depth : Nat)
    (rest : List Char) :
    untilSemicolon (depth + 1) (text ++ rest) = text ++ untilSemicolon (depth + 1) rest := by
  induction h generalizing depth rest with
  | nil => rfl
  | char hopen hclose _ ih => simp [untilSemicolon, depthBehind, hopen, hclose, ih]
  | angle _ _ ihInside ihRest => simp [untilSemicolon, depthBehind, ihInside, ihRest]

/-- No character of the text ends names. -/
def Letters (text : List Char) : Prop := ∀ c ∈ text, endsName c = false

theorem ne_of_not_endsName {c : Char} (h : endsName c = false) :
    c ≠ '.' ∧ c ≠ ';' ∧ c ≠ '/' ∧ c ≠ '<' ∧ c ≠ '>' ∧ c ≠ ':' := by
  simp only [endsName, decide_eq_false_iff_not, List.mem_cons, not_or] at h
  simp [h]

theorem Letters.balanced {text : List Char} (h : Letters text) : Balanced text := by
  induction text with
  | nil => exact .nil
  | cons c rest ih =>
    obtain ⟨hc, hrest⟩ := List.forall_mem_cons.mp h
    obtain ⟨_, _, _, hopen, hclose, _⟩ := ne_of_not_endsName hc
    exact .char hopen hclose (ih hrest)

theorem balanced_name {n : String} (h : IsName n) : Balanced n.toList := Letters.balanced h.2

theorem balanced_package {package : List String} (h : ∀ part ∈ package, IsName part) :
    Balanced (package.flatMap fun part => part.toList ++ ['/']) := by
  induction package with
  | nil => exact .nil
  | cons part package ih =>
    obtain ⟨hpart, hpackage⟩ := List.forall_mem_cons.mp h
    exact ((balanced_name hpart).snoc (by decide) (by decide)).append (ih hpackage)

/-- The arguments of a class type close the bracket that they open. -/
theorem balanced_spellArguments {arguments : List TypeArgument} (h : Balanced (spellEach arguments)) :
    Balanced (spellArguments arguments) := by
  cases arguments with
  | nil => exact .nil
  | cons a rest => exact .angle h .nil

mutual

theorem balanced_valueType {levels : Nat} : ∀ t : ValueType, t.WellFormed levels → Balanced t.spell
  | .base b, _ => by cases b <;> exact .char (by decide) (by decide) .nil
  | .reference r, h => balanced_reference r h

theorem balanced_reference {levels : Nat} :
    ∀ r : ReferenceType, r.WellFormed levels → Balanced r.spell
  | .classType c, h => (balanced_spellOpen c h).snoc (by decide) (by decide)
  | .typeVariable _, h => .char (by decide) (by decide) ((balanced_name h).snoc (by decide) (by decide))
  | .array element, h => .char (by decide) (by decide) (balanced_valueType element h)

theorem balanced_spellOpen {levels : Nat} :
    ∀ c : ClassType, c.WellFormed levels → Balanced c.spellOpen
  | .topLevel _ _ arguments, ⟨hpackage, hname, harguments⟩ =>
    ((Balanced.char (by decide) (by decide) (balanced_package hpackage)).append
      (balanced_name hname)).append (balanced_spellArguments (balanced_spellEach arguments harguments))
  | .inner enclosing _ arguments, ⟨henclosing, hname, harguments⟩ =>
    ((balanced_spellOpen enclosing henclosing).append
      (.char (by decide) (by decide) (balanced_name hname))).append
        (balanced_spellArguments (balanced_spellEach arguments harguments))

theorem balanced_argument {levels : Nat} :
    ∀ a : TypeArgument, a.WellFormed levels → Balanced a.spell
  | .any, _ => .char (by decide) (by decide) .nil
  | .of .exactly r, h => balanced_reference r h
  | .of .upper r, h | .of .lower r, h => .char (by decide) (by decide) (balanced_reference r h)

theorem balanced_spellEach {levels : Nat} :
    ∀ arguments : List TypeArgument, ArgumentsWellFormed levels arguments →
      Balanced (spellEach arguments)
  | [], _ => .nil
  | a :: rest, ⟨_, ha, hrest⟩ => (balanced_argument a ha).append (balanced_spellEach rest hrest)

end

/-! ## The name of one class type -/

/-- The spelling of a class type without its `L` and its semicolon. -/
def insideOf : ClassType → List Char
  | .topLevel package name arguments =>
    package.flatMap (fun part => part.toList ++ ['/']) ++ name.toList ++ spellArguments arguments
  | .inner enclosing name arguments =>
    insideOf enclosing ++ '.' :: name.toList ++ spellArguments arguments

theorem spellOpen_eq (c : ClassType) : c.spellOpen = 'L' :: insideOf c := by
  induction c using insideOf.induct with
  | case1 package name arguments => simp [ClassType.spellOpen, insideOf]
  | case2 enclosing name arguments ih => simp [ClassType.spellOpen, insideOf, ih]

theorem spell_eq (c : ClassType) : c.spell = 'L' :: insideOf c ++ [';'] := by
  rw [ClassType.spell, spellOpen_eq]

theorem nameOfText_letters {front : List Char} (h : Letters front) (rest : List Char) :
    nameOfText (front ++ rest) = front ++ nameOfText rest := by
  induction front with
  | nil => rfl
  | cons c front ih =>
    obtain ⟨hc, hfront⟩ := List.forall_mem_cons.mp h
    obtain ⟨hdot, _, hslash, hopen, _⟩ := ne_of_not_endsName hc
    have hchar : nameChar c = c := by rw [nameChar, if_neg hdot, if_neg hslash]
    have hstep := ih hfront
    unfold nameOfText at hstep ⊢
    simp [withoutArguments, hopen, hchar, hstep]

theorem nameOfText_package {package : List String} (h : ∀ part ∈ package, IsName part)
    (rest : List Char) : nameOfText (package.flatMap (fun part => part.toList ++ ['/']) ++ rest) =
      package.flatMap (fun part => part.toList ++ ['.']) ++ nameOfText rest := by
  induction package with
  | nil => rfl
  | cons part package ih =>
    obtain ⟨hpart, hpackage⟩ := List.forall_mem_cons.mp h
    have hslash : ∀ more, nameOfText ('/' :: more) = '.' :: nameOfText more := fun _ => rfl
    simp only [List.flatMap_cons, List.append_assoc, nameOfText_letters hpart.2, List.cons_append,
      List.nil_append, hslash, ih hpackage]

theorem nameOfText_arguments {levels : Nat} {arguments : List TypeArgument}
    (h : ArgumentsWellFormed levels arguments) (rest : List Char) :
    nameOfText (spellArguments arguments ++ rest) = nameOfText rest := by
  cases arguments with
  | nil => rfl
  | cons a others =>
    have hbalanced := withoutArguments_balanced (balanced_spellEach (a :: others) h) 0 ('>' :: rest)
    have htext : spellArguments (a :: others) ++ rest =
        '<' :: (spellEach (a :: others) ++ '>' :: rest) := by
      simp [spellArguments, spellEach]
    have hopen : ∀ more, withoutArguments 0 ('<' :: more) = withoutArguments (0 + 1) more :=
      fun _ => rfl
    rw [htext, nameOfText, hopen, hbalanced]
    rfl

theorem toList_joined (package : List String) (n : String) :
    (if package.isEmpty then n else Text.joined "." package ++ "." ++ n).toList =
      package.flatMap (fun part => part.toList ++ ['.']) ++ n.toList := by
  have hjoin : ∀ (part : String) (package : List String),
      Text.join ['.'] ((part :: package).map String.toList) ++ ['.'] =
        (part :: package).flatMap fun part => part.toList ++ ['.'] := by
    intro part package
    induction package generalizing part with
    | nil => simp [Text.join]
    | cons next package ih =>
      rw [List.flatMap_cons, ← ih next]
      simp [Text.join]
  cases package with
  | nil => rfl
  | cons part package =>
    rw [← hjoin part package]
    simp [Text.joined]

theorem nameOfText_insideOf {levels : Nat} {c : ClassType} (h : c.WellFormed levels)
    (rest : List Char) :
    nameOfText (insideOf c ++ rest) = c.binaryName.toList ++ nameOfText rest := by
  induction c using insideOf.induct generalizing rest with
  | case1 package name arguments =>
    obtain ⟨hpackage, hname, harguments⟩ := h
    simp only [insideOf, ClassType.binaryName, toList_joined, List.append_assoc,
      nameOfText_package hpackage, nameOfText_letters hname.2, nameOfText_arguments harguments]
  | case2 enclosing name arguments ih =>
    obtain ⟨henclosing, hname, harguments⟩ := h
    have hdot : ∀ more, nameOfText ('.' :: more) = '$' :: nameOfText more := fun _ => rfl
    simp only [insideOf, ClassType.binaryName, List.append_assoc, List.cons_append,
      ih henclosing, hdot, nameOfText_letters hname.2, nameOfText_arguments harguments]
    simp

theorem binaryName_eq {levels : Nat} {c : ClassType} (h : c.WellFormed levels) :
    c.binaryName = String.ofList (nameOfText (insideOf c)) := by
  have hname := nameOfText_insideOf h []
  rw [List.append_nil] at hname
  rw [hname]
  simp [nameOfText, withoutArguments]

/-! ## Where a class type ends -/

theorem untilSemicolon_letters {front : List Char} (h : Letters front) (rest : List Char) :
    untilSemicolon 0 (front ++ rest) = front ++ untilSemicolon 0 rest := by
  induction front with
  | nil => rfl
  | cons c front ih =>
    obtain ⟨hc, hfront⟩ := List.forall_mem_cons.mp h
    obtain ⟨_, hend, _, hopen, hclose, _⟩ := ne_of_not_endsName hc
    simp [untilSemicolon, depthBehind, hend, hopen, hclose, ih hfront]

theorem untilSemicolon_package {package : List String} (h : ∀ part ∈ package, IsName part)
    (rest : List Char) :
    untilSemicolon 0 (package.flatMap (fun part => part.toList ++ ['/']) ++ rest) =
      package.flatMap (fun part => part.toList ++ ['/']) ++ untilSemicolon 0 rest := by
  induction package with
  | nil => rfl
  | cons part package ih =>
    obtain ⟨hpart, hpackage⟩ := List.forall_mem_cons.mp h
    have hslash : ∀ more, untilSemicolon 0 ('/' :: more) = '/' :: untilSemicolon 0 more :=
      fun _ => rfl
    simp only [List.flatMap_cons, List.append_assoc, untilSemicolon_letters hpart.2, List.cons_append,
      List.nil_append, hslash, ih hpackage]

theorem untilSemicolon_arguments {levels : Nat} {arguments : List TypeArgument}
    (h : ArgumentsWellFormed levels arguments) (rest : List Char) :
    untilSemicolon 0 (spellArguments arguments ++ rest) =
      spellArguments arguments ++ untilSemicolon 0 rest := by
  cases arguments with
  | nil => rfl
  | cons a others =>
    have hbalanced := untilSemicolon_balanced (balanced_spellEach (a :: others) h) 0 ('>' :: rest)
    have htext : spellArguments (a :: others) = '<' :: (spellEach (a :: others) ++ ['>']) := by
      simp [spellArguments, spellEach]
    have hopen : ∀ more, untilSemicolon 0 ('<' :: more) = '<' :: untilSemicolon (0 + 1) more :=
      fun _ => rfl
    rw [htext, List.cons_append, List.append_assoc, List.singleton_append, hopen, hbalanced]
    simp [untilSemicolon, depthBehind]

theorem untilSemicolon_insideOf {levels : Nat} {c : ClassType} (h : c.WellFormed levels)
    (rest : List Char) :
    untilSemicolon 0 (insideOf c ++ rest) = insideOf c ++ untilSemicolon 0 rest := by
  induction c using insideOf.induct generalizing rest with
  | case1 package name arguments =>
    obtain ⟨hpackage, hname, harguments⟩ := h
    simp only [insideOf, List.append_assoc, untilSemicolon_package hpackage,
      untilSemicolon_letters hname.2, untilSemicolon_arguments harguments]
  | case2 enclosing name arguments ih =>
    obtain ⟨henclosing, hname, harguments⟩ := h
    have hdot : ∀ more, untilSemicolon 0 ('.' :: more) = '.' :: untilSemicolon 0 more :=
      fun _ => rfl
    simp only [insideOf, List.append_assoc, List.cons_append, ih henclosing, hdot,
      untilSemicolon_letters hname.2, untilSemicolon_arguments harguments]

/-! ## Where class types begin -/

/-- The names of the classes in a text that may begin within a name. -/
def scanned (inName : Bool) (text : List Char) : List String :=
  (classTexts inName text).map fun inside => String.ofList (nameOfText inside)

/-- Behind a class type or one of its levels stands a dot or a semicolon. -/
def EndsLevel (rest : List Char) : Prop := ∃ c more, rest = c :: more ∧ (c = '.' ∨ c = ';')

theorem scanned_letters {front : List Char} (h : Letters front) (rest : List Char) :
    scanned true (front ++ rest) = scanned true rest := by
  induction front with
  | nil => rfl
  | cons c front ih =>
    obtain ⟨hc, hfront⟩ := List.forall_mem_cons.mp h
    obtain ⟨_, hend, _, hopen, _, hcolon⟩ := ne_of_not_endsName hc
    rw [← ih hfront]
    simp [scanned, classTexts, hend, hopen, hcolon]

theorem endsWithColon_letters {front : List Char} (h : Letters front) {c : Char}
    (hc : endsName c = true) (rest : List Char) :
    endsWithColon (front ++ c :: rest) = decide (c = ':') := by
  have hfront : ∀ d ∈ front, (!endsName d) = true := fun d hd => by simp [h d hd]
  unfold endsWithColon
  rw [List.dropWhile_append_of_pos hfront]
  simp [hc]

/-- The name of a type parameter names no class, whatever it begins with. -/
theorem scanned_label {front : List Char} (h : Letters front) (inName : Bool) (rest : List Char) :
    scanned inName (front ++ ':' :: rest) = scanned false rest := by
  induction front generalizing inName with
  | nil => cases inName <;> rfl
  | cons c front ih =>
    obtain ⟨hc, hfront⟩ := List.forall_mem_cons.mp h
    have hlabel := endsWithColon_letters hfront (c := ':') rfl rest
    cases inName with
    | true => exact (ih hfront _)
    | false =>
      have hstep : scanned false (c :: (front ++ ':' :: rest)) =
          scanned (c ∈ ['L', 'T', '.']) (front ++ ':' :: rest) := by
        simp [scanned, classTexts, hlabel]
      rw [List.cons_append, hstep, ih hfront]

/-- A class type is no name of a type parameter. -/
theorem not_endsWithColon_insideOf {levels : Nat} {c : ClassType} (h : c.WellFormed levels)
    {rest : List Char} (hrest : EndsLevel rest) : endsWithColon (insideOf c ++ rest) = false := by
  induction c using insideOf.induct generalizing rest with
  | case1 package name arguments =>
    obtain ⟨hpackage, hname, harguments⟩ := h
    have hbehind : ∃ d more, spellArguments arguments ++ rest = d :: more ∧
        endsName d = true ∧ d ≠ ':' := by
      cases arguments with
      | nil =>
        obtain ⟨d, more, rfl, rfl | rfl⟩ := hrest
        · exact ⟨'.', more, rfl, rfl, by decide⟩
        · exact ⟨';', more, rfl, rfl, by decide⟩
      | cons a others => exact ⟨'<', _, rfl, rfl, by decide⟩
    obtain ⟨d, more, hd, hends, hcolon⟩ := hbehind
    cases package with
    | nil =>
      rw [insideOf, List.flatMap_nil, List.nil_append, List.append_assoc, hd,
        endsWithColon_letters hname.2 hends]
      simp [hcolon]
    | cons part package =>
      obtain ⟨hpart, _⟩ := List.forall_mem_cons.mp hpackage
      simp only [insideOf, List.flatMap_cons, List.append_assoc, List.cons_append]
      rw [endsWithColon_letters hpart.2 rfl]
      rfl
  | case2 enclosing name arguments ih =>
    obtain ⟨henclosing, _⟩ := h
    rw [insideOf, List.append_assoc, List.append_assoc]
    exact ih henclosing ⟨'.', _, rfl, Or.inl rfl⟩

theorem scanned_endsLevel {rest : List Char} (h : EndsLevel rest) (inName : Bool) :
    scanned inName rest = scanned false rest := by
  obtain ⟨c, more, rfl, rfl | rfl⟩ := h <;> cases inName <;> rfl

theorem scanned_package {package : List String} (h : ∀ part ∈ package, IsName part)
    (rest : List Char) : scanned true (package.flatMap (fun part => part.toList ++ ['/']) ++ rest) =
      scanned true rest := by
  induction package with
  | nil => rfl
  | cons part package ih =>
    obtain ⟨hpart, hpackage⟩ := List.forall_mem_cons.mp h
    have hslash : ∀ more, scanned true ('/' :: more) = scanned true more := fun _ => rfl
    simp only [List.flatMap_cons, List.append_assoc, scanned_letters hpart.2, List.cons_append,
      List.nil_append, hslash, ih hpackage]

theorem scanned_spellArguments {arguments : List TypeArgument} {rest : List Char}
    (heach : ∀ more, scanned false (spellEach arguments ++ more) =
      argumentListClasses arguments ++ scanned false more) (hrest : EndsLevel rest) :
    scanned true (spellArguments arguments ++ rest) =
      argumentListClasses arguments ++ scanned false rest := by
  cases arguments with
  | nil => exact scanned_endsLevel hrest true
  | cons a others =>
    have htext : spellArguments (a :: others) ++ rest =
        '<' :: (spellEach (a :: others) ++ '>' :: rest) := by
      simp [spellArguments, spellEach]
    have hopen : ∀ more, scanned true ('<' :: more) = scanned false more := fun _ => rfl
    rw [htext, hopen, heach]
    rfl

mutual

theorem scanned_valueType {levels : Nat} : ∀ (t : ValueType) (rest : List Char),
    t.WellFormed levels → scanned false (t.spell ++ rest) = t.classes ++ scanned false rest
  | .base b, rest, _ => by cases b <;> rfl
  | .reference r, rest, h => scanned_reference r rest h

theorem scanned_reference {levels : Nat} : ∀ (r : ReferenceType) (rest : List Char),
    r.WellFormed levels → scanned false (r.spell ++ rest) = r.classes ++ scanned false rest
  | .classType c, rest, h => by
    have hends : EndsLevel (';' :: rest) := ⟨';', rest, rfl, Or.inr rfl⟩
    have htext : (ReferenceType.classType c).spell ++ rest = 'L' :: (insideOf c ++ ';' :: rest) := by
      show c.spell ++ rest = _
      rw [spell_eq]
      simp
    have hinside : untilSemicolon 0 (insideOf c ++ ';' :: rest) = insideOf c := by
      rw [untilSemicolon_insideOf h]
      simp [untilSemicolon]
    have hopens : scanned false ('L' :: (insideOf c ++ ';' :: rest)) =
        c.binaryName :: scanned true (insideOf c ++ ';' :: rest) := by
      simp [scanned, classTexts, not_endsWithColon_insideOf h hends, hinside, binaryName_eq h]
    rw [htext, hopens, scanned_insideOf c _ h hends]
    rfl
  | .typeVariable n, rest, h => by
    have htext : (ReferenceType.typeVariable n).spell ++ rest = 'T' :: (n.toList ++ ';' :: rest) := by
      simp [ReferenceType.spell]
    have hopens : scanned false ('T' :: (n.toList ++ ';' :: rest)) =
        scanned true (n.toList ++ ';' :: rest) := rfl
    rw [htext, hopens, scanned_letters h.2]
    rfl
  | .array element, rest, h => scanned_valueType element rest h

/-- The class types in the arguments of a class type, which itself has begun before. -/
theorem scanned_insideOf {levels : Nat} : ∀ (c : ClassType) (rest : List Char),
    c.WellFormed levels → EndsLevel rest →
      scanned true (insideOf c ++ rest) = c.argumentClasses ++ scanned false rest
  | .topLevel package n arguments, rest, ⟨hpackage, hname, harguments⟩, hrest => by
    rw [insideOf, List.append_assoc, List.append_assoc, scanned_package hpackage,
      scanned_letters hname.2]
    exact scanned_spellArguments (fun more => scanned_spellEach arguments more harguments) hrest
  | .inner enclosing n arguments, rest, ⟨henclosing, hname, harguments⟩, hrest => by
    have hdot : scanned false ('.' :: (n.toList ++ (spellArguments arguments ++ rest))) =
        scanned true (n.toList ++ (spellArguments arguments ++ rest)) := rfl
    rw [insideOf, List.append_assoc, List.append_assoc, List.cons_append,
      scanned_insideOf enclosing _ henclosing ⟨'.', _, rfl, Or.inl rfl⟩, hdot,
      scanned_letters hname.2,
      scanned_spellArguments (fun more => scanned_spellEach arguments more harguments) hrest,
      ← List.append_assoc]
    rfl

theorem scanned_argument {levels : Nat} : ∀ (a : TypeArgument) (rest : List Char),
    a.WellFormed levels → scanned false (a.spell ++ rest) = a.classes ++ scanned false rest
  | .any, _, _ => rfl
  | .of .exactly r, rest, h | .of .upper r, rest, h | .of .lower r, rest, h =>
    scanned_reference r rest h

theorem scanned_spellEach {levels : Nat} : ∀ (arguments : List TypeArgument) (rest : List Char),
    ArgumentsWellFormed levels arguments →
      scanned false (spellEach arguments ++ rest) = argumentListClasses arguments ++ scanned false rest
  | [], _, _ => rfl
  | a :: others, rest, ⟨_, ha, hothers⟩ => by
    rw [spellEach, List.append_assoc, scanned_argument a _ ha, scanned_spellEach others rest hothers,
      ← List.append_assoc]
    rfl

end

/-! ## Declarations -/

theorem scanned_each {α : Type} (spell : α → List Char) (names : α → List String) {items : List α}
    (h : ∀ a ∈ items, ∀ rest, scanned false (spell a ++ rest) = names a ++ scanned false rest)
    (rest : List Char) : scanned false (items.flatMap spell ++ rest) =
      items.flatMap names ++ scanned false rest := by
  induction items with
  | nil => rfl
  | cons a items ih =>
    obtain ⟨ha, hitems⟩ := List.forall_mem_cons.mp h
    rw [List.flatMap_cons, List.append_assoc, ha, ih hitems, List.flatMap_cons, List.append_assoc]

theorem scanned_typeParameter {p : TypeParameter} (h : p.WellFormed) (rest : List Char) :
    scanned false (p.spell ++ rest) = p.classes ++ scanned false rest := by
  have hbounds : scanned false (p.interfaceBounds.flatMap (fun bound => ':' :: bound.spell) ++ rest) =
      p.interfaceBounds.flatMap ReferenceType.classes ++ scanned false rest :=
    scanned_each (fun bound : ReferenceType => ':' :: bound.spell) ReferenceType.classes
      (fun r hr more => scanned_reference r more (h.interfaceBounds r hr)) rest
  obtain ⟨n, bound, bounds⟩ := p
  have hlabel : scanned false (TypeParameter.spell ⟨n, bound, bounds⟩ ++ rest) =
      scanned false ((bound.map ReferenceType.spell).getD [] ++
        (bounds.flatMap (fun bound => ':' :: bound.spell) ++ rest)) := by
    rw [← scanned_label h.name.2 false ((bound.map ReferenceType.spell).getD [] ++ _)]
    simp [TypeParameter.spell]
  rw [hlabel]
  cases bound with
  | none => exact hbounds
  | some r =>
    have hr := scanned_reference r (bounds.flatMap (fun bound => ':' :: bound.spell) ++ rest)
      (h.classBound r rfl)
    simp only [Option.map_some, Option.getD_some, hr, hbounds, TypeParameter.classes,
      Option.toList_some, List.cons_append, List.nil_append, List.flatMap_cons, List.append_assoc]

theorem scanned_spellParameters {parameters : List TypeParameter}
    (h : ∀ p ∈ parameters, p.WellFormed) (rest : List Char) :
    scanned false (spellParameters parameters ++ rest) =
      parameters.flatMap TypeParameter.classes ++ scanned false rest := by
  cases parameters with
  | nil => rfl
  | cons p others =>
    have htext : spellParameters (p :: others) ++ rest =
        '<' :: ((p :: others).flatMap TypeParameter.spell ++ '>' :: rest) := by
      simp [spellParameters]
    have hopen : ∀ more, scanned false ('<' :: more) = scanned false more := fun _ => rfl
    rw [htext, hopen, scanned_each _ _ fun p hp more => scanned_typeParameter (h p hp) more]
    rfl

theorem scanned_classType {c : ClassType} (h : c.WellFormed maxNesting) (rest : List Char) :
    scanned false (c.spell ++ rest) = c.classes ++ scanned false rest :=
  scanned_reference (.classType c) rest h

theorem scanned_classSignature {s : ClassSignature} (h : s.WellFormed) :
    scanned false s.spell = s.classes := by
  have hinterfaces := scanned_each _ _ (fun c hc more => scanned_classType (h.interfaces c hc) more) []
  rw [List.append_nil] at hinterfaces
  rw [ClassSignature.spell, List.append_assoc, scanned_spellParameters h.typeParameters,
    scanned_classType h.superclass, hinterfaces]
  simp [ClassSignature.classes, scanned, classTexts]

/-- The classes that a method signature names: in the bounds of its type parameters, in its
parameters, in its result and in what it throws. -/
def methodClasses (s : MethodSignature) : List String :=
  s.boundClasses ++ s.parameters.flatMap ValueType.classes ++
    s.result.toList.flatMap ValueType.classes ++ s.throws.flatMap ThrownType.classes

theorem scanned_methodSignature {s : MethodSignature} (h : s.WellFormed) :
    scanned false s.spell = methodClasses s := by
  have hthrows : scanned false (s.throws.flatMap fun t => '^' :: t.toReference.spell) =
      s.throws.flatMap ThrownType.classes := by
    have hall := scanned_each (fun t : ThrownType => '^' :: t.toReference.spell)
      ThrownType.classes (fun t ht more => scanned_reference t.toReference more (h.throws t ht)) []
    simpa [scanned, classTexts] using hall
  have hresult : ∀ rest, scanned false ((s.result.map ValueType.spell).getD ['V'] ++ rest) =
      s.result.toList.flatMap ValueType.classes ++ scanned false rest := by
    intro rest
    cases hs : s.result with
    | none => rfl
    | some t => simpa using scanned_valueType t rest (h.result t hs)
  have hparameters : ∀ rest, scanned false (s.parameters.flatMap ValueType.spell ++ rest) =
      s.parameters.flatMap ValueType.classes ++ scanned false rest :=
    scanned_each _ _ fun t ht more => scanned_valueType t more (h.parameters t ht)
  have hopen : ∀ more, scanned false ('(' :: more) = scanned false more := fun _ => rfl
  have hclose : ∀ more, scanned false (')' :: more) = scanned false more := fun _ => rfl
  simp only [MethodSignature.spell, methodClasses, MethodSignature.boundClasses, List.append_assoc,
    List.cons_append, scanned_spellParameters h.typeParameters, hopen, hparameters, hclose, hresult,
    hthrows]

/-- The names of the classes in a signature are those that stand in its text: that of a class
type without its arguments, and of all class types in the text at any depth, one for each and in
the order in which they begin. -/
theorem names_are_what_the_text_spells :
    (∀ text c, ValueType.parse text = .ok (.reference (.classType c)) →
      ∃ inside, text.toList = 'L' :: inside ++ [';'] ∧
        c.binaryName = String.ofList (nameOfText inside)) ∧
    (∀ text t, ValueType.parse text = .ok t → t.classes = namesIn text) ∧
    (∀ text s, ClassSignature.parse text = .ok s → s.classes = namesIn text) ∧
    (∀ text s, MethodSignature.parse text = .ok s → methodClasses s = namesIn text) := by
  refine ⟨fun text c h => ?_, fun text t h => ?_, fun text s h => ?_, fun text s h => ?_⟩
  · obtain ⟨hfits, htext⟩ := (reads_valueType _ _ _).mp (parse_eq_ok.mp h)
    refine ⟨insideOf c, ?_, binaryName_eq hfits⟩
    rw [htext, List.append_nil, ← spell_eq]
    rfl
  · obtain ⟨hfits, htext⟩ := (reads_valueType _ _ _).mp (parse_eq_ok.mp h)
    have hnames := scanned_valueType t [] hfits
    rw [← htext] at hnames
    simpa [scanned, classTexts, namesIn] using hnames.symm
  · obtain ⟨hfits, _, htext, _⟩ := takes_classSignature.mp (parse_eq_ok.mp h)
    rw [← scanned_classSignature hfits, ← htext]
    rfl
  · obtain ⟨hfits, _, htext, _⟩ := takes_methodSignature.mp (parse_eq_ok.mp h)
    rw [← scanned_methodSignature hfits, ← htext]
    rfl

/-- An inner class with arguments at two levels. The class signature has type parameters whose
names begin like class types, and in the method signature a class stands in each part. -/
theorem three_texts_spell_their_names :
    (∃ inside, "Lp/Map<TK;[Lq/Lé<*>;>.Entry<+Lr/X;>;".toList = 'L' :: inside ++ [';'] ∧
      String.ofList (nameOfText inside) = "p.Map$Entry") ∧
    namesIn "Lp/Map<TK;[Lq/Lé<*>;>.Entry<+Lr/X;>;" = ["p.Map$Entry", "q.Lé", "r.X"] ∧
    namesIn "<LL:[ILfo::Lp/B<Lq/C;>;>Lp/D;Lp/E.F;" = ["p.B", "q.C", "p.D", "p.E$F"] ∧
    namesIn "<T:Lp/B;>(ILp/C;TT;)[Lp/D;^Lp/E;^TT;" = ["p.B", "p.C", "p.D", "p.E"] := by
  have htype : ValueType.parse "Lp/Map<TK;[Lq/Lé<*>;>.Entry<+Lr/X;>;" =
      .ok (.reference (.classType (.inner
        (.topLevel ["p"] "Map" [.of .exactly (.typeVariable "K"),
          .of .exactly (.array (.reference (.classType (.topLevel ["q"] "Lé" [.any]))))])
        "Entry" [.of .upper (.classType (.topLevel ["r"] "X" []))]))) := by cbv
  have hclass : ∃ s, ClassSignature.parse "<LL:[ILfo::Lp/B<Lq/C;>;>Lp/D;Lp/E.F;" = .ok s ∧
      s.classes = ["p.B", "q.C", "p.D", "p.E$F"] := ⟨_, by cbv, by cbv⟩
  have hmethod : ∃ s, MethodSignature.parse "<T:Lp/B;>(ILp/C;TT;)[Lp/D;^Lp/E;^TT;" = .ok s ∧
      methodClasses s = ["p.B", "p.C", "p.D", "p.E"] := ⟨_, by cbv, by cbv⟩
  obtain ⟨hname, hnames, hclasses, hmethods⟩ := names_are_what_the_text_spells
  obtain ⟨inside, hinside, hbinary⟩ := hname _ _ htype
  obtain ⟨s, hs, hsClasses⟩ := hclass
  obtain ⟨m, hm, hmClasses⟩ := hmethod
  refine ⟨⟨inside, hinside, ?_⟩, ?_, ?_, ?_⟩
  · rw [← hbinary]
    rfl
  · rw [← hnames _ _ htype]
    rfl
  · rw [← hclasses _ _ hs, hsClasses]
  · rw [← hmethods _ _ hm, hmClasses]

end ClassAtlas.Signature
