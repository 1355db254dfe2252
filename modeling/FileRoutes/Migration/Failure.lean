import FileRoutes.Problem

/-!
# Failures of a migration

A migration fails because it refuses what it is asked to do, or because something goes wrong during
one of its tasks.  In the second case the task and the cause are told, and behind some causes there
is another one; `Failure.chain` lists the descriptions from the outside in.

A problem that comes from the file system names the fault in its own description already, and the
fault follows once more as the cause behind it.
-/

namespace FileRoutes

/-- What a migration refuses to do. -/
inductive Refusal where
  /-- There is nothing at the path. -/
  | absent (path : Path)
  /-- There is something else than a directory at the path. -/
  | noDirectory (path : Path)
  /-- The copy would end up in what is copied. -/
  | targetInside (target source : Path)

/-- The description of a refusal. -/
def Refusal.message : Refusal → Text
  | absent path => "Path does not exist: " ++ path.text
  | noDirectory path => "Path is not a directory: " ++ path.text
  | targetInside target source => "Target " ++ target.text ++ " lies inside source " ++ source.text

/-- What a migration is about when something goes wrong. -/
inductive Task where
  | loadConventions (file : Path)
  | resolveSource (source : Path)
  | findCurrent
  | readSource (source : Path)
  | createDirectory (directory : Path)
  | readLink (link : Path)
  | replaceEntry (entry : Path)
  | createLink (link : Path)
  | copyFile (destination : Path)
  | writeFile (file : Path)
  | compileRoutes (root : Path)

/-- The description of a task that failed. -/
def Task.message : Task → Text
  | loadConventions file => "Failed to load conventions from " ++ file.text
  | resolveSource source => "Failed to resolve source: " ++ source.text
  | findCurrent => "Failed to read the current directory"
  | readSource source => "Failed to read " ++ source.text
  | createDirectory directory => "Failed to create directory: " ++ directory.text
  | readLink link => "Failed to read link: " ++ link.text
  | replaceEntry entry => "Failed to replace " ++ entry.text
  | createLink link => "Failed to create link: " ++ link.text
  | copyFile destination => "Failed to copy to " ++ destination.text
  | writeFile file => "Failed to write to file: " ++ file.text
  | compileRoutes root => "Failed to compile routes in " ++ root.text

/-- What goes wrong during a task. -/
inductive Cause where
  /-- An operation on the file system fails. -/
  | fault (fault : Fault)
  /-- An entry below a directory cannot be visited. -/
  | visit (path : Path) (fault : Fault)
  /-- The compiler is stopped. -/
  | problem (problem : Problem)

/-- The descriptions of a cause and of those behind it. -/
def Cause.chain : Cause → List Text
  | fault f => [f.message]
  | visit path f => ["IO error for operation on " ++ path.text ++ ": " ++ f.message, f.message]
  | problem p =>
    p.message :: match p.fault? with
      | some f => [f.message]
      | none => []

/-- Why a migration fails. -/
inductive Failure where
  | refused (refusal : Refusal)
  | during (task : Task) (cause : Cause)

namespace Failure

/-- The descriptions of a failure and of what is behind it. -/
def chain : Failure → List Text
  | refused refusal => [refusal.message]
  | during task cause => task.message :: cause.chain

/-- The whole description on one line. -/
def message (f : Failure) : Text := Text.join ": " f.chain

end Failure

end FileRoutes
