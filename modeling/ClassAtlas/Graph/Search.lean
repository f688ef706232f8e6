-- Breadth-first search. Nothing is visited twice, and what is nearer to the start is
-- visited first.

namespace ClassAtlas.Search

variable {α : Type} [DecidableEq α]

/-- The elements of a list that are not among `seen`, each of them once. -/
def fresh (seen : List α) : List α → List α
  | [] => []
  | x :: rest => if x ∈ seen then fresh seen rest else x :: fresh (seen ++ [x]) rest

/-- Visits what the queue leads to, in at most `fuel` steps. The result is `seen` with all
that is newly found at its end. -/
def visit (next : α → List α) : Nat → List α → List α → List α
  | 0, _, seen => seen
  | _ + 1, [], seen => seen
  | fuel + 1, x :: queue, seen =>
    let found := fresh seen (next x)
    visit next fuel (queue ++ found) (seen ++ found)

/-- All that the elements of `starts` lead to in one or more steps, in the order of the
search. The elements of `known` are not told again. Among `size` elements a search takes
no more steps than the starts and those elements. -/
def reached (next : α → List α) (size : Nat) (starts known : List α) : List α :=
  (visit next (starts.length + size) starts known).drop known.length

end ClassAtlas.Search
