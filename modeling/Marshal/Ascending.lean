/-!
# Ascending lists

Lists of pairs in ascending order of their keys, every key once. They are maps
of which there is only one form: equal maps are equal lists.
-/

namespace Marshal.Ascending

variable {κ α : Type} [LT κ] [DecidableLT κ] [DecidableEq κ]

/-- The list with a value put under a key, in place of the one that was there. -/
def insert (key : κ) (value : α) : List (κ × α) → List (κ × α)
  | [] => [(key, value)]
  | (k, v) :: rest =>
    if key = k then (key, value) :: rest
    else if key < k then (key, value) :: (k, v) :: rest
    else (k, v) :: insert key value rest

/-- The list of the pairs, of which later ones replace earlier ones. -/
def ofPairs (pairs : List (κ × α)) : List (κ × α) :=
  pairs.foldl (fun l (k, v) => insert k v l) []

omit [LT κ] [DecidableLT κ] in
/-- The value under a key. -/
def get? (key : κ) : List (κ × α) → Option α
  | [] => none
  | (k, v) :: rest => if key = k then some v else get? key rest

/-- The keys in ascending order, every one once. -/
def keysOf (keys : List κ) : List κ :=
  (ofPairs (keys.map fun k => (k, ()))).map (·.1)

end Marshal.Ascending
