-- The numbers of entries. Faults take none, so the entries of a root are numbered without gaps.
import ClassAtlas.Entries

namespace ClassAtlas

/-- The entries among the items of a root. -/
def taken {α : Type} (items : List (Except ScanFault α)) : List α := items.filterMap Except.toOption

/-- Entries with their numbers, the first one being numbered `n`. -/
def FoundEntry.numbered (n : Nat) (entries : List FoundEntry) : List RootEntry :=
  (entries.zipIdx n).map fun x => ⟨x.2, x.1.name, x.1.location, x.1.bytes⟩

theorem taken_append {α : Type} (items items' : List (Except ScanFault α)) :
    taken (items ++ items') = taken items ++ taken items' := List.filterMap_append

theorem taken_numberEntries (n : Nat) (items : List (Except ScanFault FoundEntry)) :
    taken (numberEntries n items) = FoundEntry.numbered n (taken items) := by
  induction items generalizing n with
  | nil => rfl
  | cons item rest ih =>
    cases item with
    | error fault => exact ih n
    | ok e => exact congrArg (List.cons _) (ih (n + 1))

theorem FoundEntry.map_ordinal_numbered (n : Nat) (entries : List FoundEntry) :
    (numbered n entries).map RootEntry.ordinal = List.range' n entries.length := by
  unfold numbered
  rw [List.map_map]
  show (entries.zipIdx n).map Prod.snd = _
  exact List.zipIdx_map_snd n entries

theorem FoundEntry.nodup_map_ordinal_numbered (n : Nat) (entries : List FoundEntry) :
    ((numbered n entries).map RootEntry.ordinal).Nodup := by
  rw [map_ordinal_numbered]
  exact List.nodup_range'

theorem FoundEntry.length_numbered (n : Nat) (entries : List FoundEntry) :
    (numbered n entries).length = entries.length := by
  simp [numbered]

end ClassAtlas
