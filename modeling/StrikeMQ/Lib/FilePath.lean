import StrikeMQ.Lib.Bytes

/-!
# Paths of directories

A path is a string of names with slashes between them. Followed from a directory on, a name
leads into the directory of that name, `..` to the one above, and `.` and nothing to where one
is. A tree without links is its set of locations, each the names on the way from the root.
-/

set_option autoImplicit false

namespace StrikeMQ.Lib

/-- The names on the way from the root to a directory. -/
abbrev Location := List Bytes

def enter (here : Location) (name : Bytes) : Location :=
  if name = [] ∨ name = ascii "." then here
  else if name = ascii ".." then here.dropLast
  else here ++ [name]

/-- Where a path leads. -/
def resolve (cwd : Location) (path : Bytes) : Location :=
  (path.splitOn 0x2f).foldl enter (if path.head? = some 0x2f then [] else cwd)

/-- The locations that are left when everything at a location and below is removed. -/
def removeAll (dirs : List Location) (top : Location) : List Location :=
  dirs.filter fun dir => ¬ top <+: dir

theorem mem_removeAll {dirs : List Location} {top dir : Location} :
    dir ∈ removeAll dirs top ↔ dir ∈ dirs ∧ ¬ top <+: dir := by
  rw [removeAll, List.mem_filter, decide_eq_true_eq]

theorem mem_foldl_removeAll {α : Type} (place : α → Location) {xs : List α}
    {dirs : List Location} {dir : Location} :
    dir ∈ xs.foldl (fun dirs x => removeAll dirs (place x)) dirs ↔
      dir ∈ dirs ∧ ∀ x ∈ xs, ¬ place x <+: dir := by
  induction xs generalizing dirs with
  | nil => simp
  | cons x xs ih => rw [List.foldl_cons, ih, mem_removeAll, List.forall_mem_cons, and_assoc]

/-- What follows a directory's path is followed from that directory on. -/
theorem resolve_append (cwd : Location) (dir rest : Bytes) :
    resolve cwd (dir ++ 0x2f :: rest) =
      (rest.splitOn 0x2f).foldl enter (resolve cwd (dir ++ [0x2f])) := by
  have hhead : (dir ++ 0x2f :: rest).head? = (dir ++ [0x2f]).head? := by
    cases dir <;> rfl
  have hslash : (dir ++ [0x2f]).splitOn 0x2f = dir.splitOn 0x2f ++ [[]] := by
    rw [List.splitOn_append_cons_self, List.splitOn_nil]
  rw [resolve, resolve, hhead, List.splitOn_append_cons_self, hslash, List.foldl_append,
    List.foldl_append, List.foldl_cons, List.foldl_nil, enter, if_pos (Or.inl rfl)]

/-- A plain name leads one step down. -/
theorem resolve_append_name (cwd : Location) (dir : Bytes) {name : Bytes}
    (hslash : (0x2f : UInt8) ∉ name) (hname : name ≠ [] ∧ name ≠ ascii "." ∧ name ≠ ascii "..") :
    resolve cwd (dir ++ 0x2f :: name) = resolve cwd (dir ++ [0x2f]) ++ [name] := by
  obtain ⟨hnil, hdot, hdots⟩ := hname
  rw [resolve_append, List.splitOn_eq_singleton hslash, List.foldl_cons, List.foldl_nil, enter,
    if_neg (not_or.mpr ⟨hnil, hdot⟩), if_neg hdots]

end StrikeMQ.Lib
