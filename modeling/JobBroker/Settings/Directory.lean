/-!
# Directories

The files of a directory by their paths, and the way from a path to a file: `.` stays where it is
and `..` goes back, both among directories that are there.
-/

namespace JobBroker.Directory

/-- What stands before, between and after slashes. -/
def split : List Char → List (List Char)
  | [] => [[]]
  | c :: cs =>
    match split cs with
    | [] => [[c]]
    | s :: ss => if c = '/' then [] :: s :: ss else (c :: s) :: ss

/-- The steps of a path, without those that stay where they are. -/
def steps (path : String) : List (List Char) :=
  (split path.toList).filter fun s => s ≠ [] && s ≠ ['.']

/-- Whether steps lead to a directory that some file is in. -/
def holds (files : List (String × String)) (here : List (List Char)) : Bool :=
  files.any fun f => here ≠ steps f.1 && here.isPrefixOf (steps f.1)

/-- The place that steps lead to. Only the last step may leave the directories, and none the whole
directory. -/
def walk (files : List (String × String)) (here : List (List Char)) :
    List (List Char) → Option (List (List Char))
  | [] => some here
  | s :: rest =>
    if s = ['.', '.'] then if here = [] then none else walk files here.dropLast rest
    else if rest = [] || holds files (here ++ [s]) then walk files (here ++ [s]) rest
    else none

/-- The text of the file under a path. -/
def file? (files : List (String × String)) (path : String) : Option String := do
  let here ← walk files [] (steps path)
  (files.find? fun f => steps f.1 = here).map (·.2)

end JobBroker.Directory
