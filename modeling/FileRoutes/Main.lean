import FileRoutes.Command.Report
import FileRoutes.FileSystem.Inventory

/-!
# Command line

The program takes the part of the disk that its arguments name into a `FileSystem`, runs `command`
on it, writes to the disk what is new in the result, and shows the report.

## What is taken from the disk

For each path among the arguments, every name on the way to it is looked up, and what it leads to is
taken whole.  Where a link stands on the way or in a tree, its target is taken too.  Places are read
once, so that links which lead back above themselves do no harm.

## What the disk does not tell

* Of a link only the place it leads to is known, not the path it holds, and no link can be created.
  So a link stands in the file system with an absolute path, one that leads nowhere is left out, and
  a new one is refused when it comes to writing.
* Of permissions only this is known: whether something can be read.
-/

namespace FileRoutes

namespace Disk

/-- A location on the disk. -/
def place (loc : Location) : IO.FS.DirEntry := ⟨"/", String.ofList (Path.ofLocation loc).text⟩

/-- The location that an absolute path names, if it is followed downwards only. -/
def location (path : Path) : Location := path.segments.filter (· ≠ [])

/-- The canonical location behind a location, if there is anything. -/
def real? (loc : Location) : IO (Option Location) := do
  match ← (IO.FS.realPath (place loc).path).toBaseIO with
  | .ok path => return some (location (Path.ofText path.toString.toList))
  | .error _ => return none

/-- The entry at a location with all that is below it. -/
partial def entry? (loc : Location) : IO (Option Entry) := do
  let path := (place loc).path
  let .ok found ← path.symlinkMetadata.toBaseIO | return none
  match found.type with
  | .symlink => return (← real? loc).map fun target => .link (Path.ofLocation target)
  | .other => return some (.file { Mode.plain with read := false } [])
  | .file =>
    match ← (IO.FS.readBinFile path).toBaseIO with
    | .ok contents => return some (.file .plain contents.toList)
    | .error _ => return some (.file { Mode.plain with read := false } [])
  | .dir =>
    match ← path.readDir.toBaseIO with
    | .error _ => return some (.directory { Mode.full with read := false } [])
    | .ok found =>
      let entries ← found.toList.filterMapM fun e => do
        let name := Utf8.encode e.fileName.toList
        return (← entry? (loc ++ [name])).map (name, ·)
      return some (.directory .full entries)

/-- A part of the disk. -/
structure Part where
  fs : FileSystem
  /-- The locations whose entries have been taken whole. -/
  taken : List Location

/-- Adds an entry in a directory that is there. -/
def Part.put (part : Part) (loc : Location) (e : Entry) : Part :=
  { part with fs := part.fs.put loc e }

/-- Adds what a path leads to, step by step from a canonical location, and the targets of all links
in it. -/
partial def Part.take (part : Part) (loc : Location) : List Step → IO Part
  | .up :: rest => part.take loc.dropLast rest
  | .down name :: rest => do
    let next := loc ++ [name]
    let some target ← real? next | return part
    if target ≠ next then
      let part := if (part.fs.find? next).isSome then part
        else part.put next (.link (Path.ofLocation target))
      (← part.take [] (target.map .down)).take target rest
    else
      let part := if (part.fs.find? next).isSome then part else part.put next .emptyDirectory
      part.take next rest
  | _ :: rest => part.take loc rest
  | [] => do
    if part.taken.any (·.isPrefixOf loc) then return part
    let some e ← entry? loc | return part
    let part : Part := ⟨part.fs.put loc e, loc :: part.taken⟩
    e.items.foldlM (fun part (_, item) => match item with
      | .link target => part.take [] target.steps
      | _ => pure part) part

/-- The part of the disk that a command line needs. -/
def part (words : List Text) : IO FileSystem := do
  let current := location (Path.ofText (← IO.currentDir).toString.toList)
  let paths := match CommandLine.read words with
    | .ok a => [a.source, a.target] ++ a.conventions?.toList ++ a.dump?.toList
    | .error _ => []
  let top := current.foldr (fun name e => .directory .full [(name, e)]) Entry.emptyDirectory
  let part ← paths.foldlM (fun (part : Part) t =>
    let path := Path.ofText t
    part.take (if path.isAbsolute then [] else current) path.steps) ⟨⟨top, .ofLocation current⟩, []⟩
  return part.fs

/-- Writes something new to the disk. -/
def write : Location × Item → IO Unit
  | (loc, .directory) => IO.FS.createDir (place loc).path
  | (loc, .file contents?) => IO.FS.writeBinFile (place loc).path ⟨(contents?.getD []).toArray⟩
  | (loc, .link _) => throw (IO.userError ("cannot create the link " ++ (place loc).fileName))

end Disk

end FileRoutes

open FileRoutes in
/-- Runs the command on the disk.  The result is the exit code. -/
def main (words : List String) : IO UInt32 := do
  let words : List Text := words.map (·.toList)
  let before ← Disk.part words
  let report := command words before
  (report.fs.root.news (some before.root)).forM Disk.write
  IO.print (String.ofList report.output)
  IO.eprint (String.ofList report.messages)
  return report.code.toUInt32
