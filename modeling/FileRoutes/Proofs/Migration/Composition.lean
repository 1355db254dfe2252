import FileRoutes.Command.Migrate
import FileRoutes.Proofs.FileSystem.Names
import FileRoutes.Proofs.Migration.Session

/-!
# What holds of every step

The steps of a session are put together from a few elementary ones by doing one after the other.  A
property of steps that the elementary ones have and sequences keep (`Action.Composes`) therefore holds of
whatever is put together from them, and in particular of a copy's walk, however deep it goes
(`Composes.walk`).  If refusals and what is printed have it too (`Action.Pervades`), it holds of a whole
migration (`Pervades.migrate`).

* Not to read the log is such a property (`pervades_logless`).
* So is to keep what the five changes keep that a migration is made of (`pervades_keeping`).  A migration
  therefore makes no name that the system could not hold (`migrate_namesFit`).
* Not to refuse anything holds of a walk only (`composes_obliging`): a step of it that fails does so during
  a task.
-/

namespace FileRoutes

namespace Action

/-- A property of steps that the elementary ones of a walk have and sequences keep. -/
structure Composes (P : ∀ α : Type, Action α → Prop) : Prop where
  pure : ∀ {α : Type} (a : α), P α (Pure.pure a)
  bind : ∀ {α β : Type} {x : Action α} {f : α → Action β}, P α x → (∀ a, P β (f a)) → P β (x >>= f)
  tell : ∀ level stage message, P Unit (tell level stage message)
  fileSystem : P FileSystem fileSystem
  attempt : ∀ {α : Type} (task : Task) (result : Except Cause α), P α (attempt task result)
  createDirectories : ∀ task p, P Unit (change task (FileSystem.createDirectories p))
  removeFile : ∀ task p, P Unit (change task (FileSystem.removeFile p))
  createLink : ∀ task target p, P Unit (change task (FileSystem.createLink target p))
  copyFile : ∀ task source p, P Unit (change task (FileSystem.copyFile source p))

namespace Composes

variable {P : ∀ α : Type, Action α → Prop} {α γ : Type}

theorem throw (h : Composes P) (task : Task) (cause : Cause) :
    P α (MonadExcept.throw (.during task cause)) := h.attempt task (.error cause)

theorem ask (h : Composes P) (task : Task) (question : FileSystem → Except Fault α) :
    P α (ask task question) :=
  h.bind h.fileSystem fun _ => h.attempt _ _

theorem foldlM (h : Composes P) {f : α → γ → Action α} (hf : ∀ a x, P α (f a x)) (xs : List γ) (a : α) :
    P α (xs.foldlM f a) := by
  induction xs generalizing a with
  | nil =>
    rw [List.foldlM_nil]
    exact h.pure a
  | cons x rest ih =>
    rw [List.foldlM_cons]
    exact h.bind (hf a x) ih

/-! ## The walk of a copy -/

open Copy

theorem copyLink (h : Composes P) (entry destination : Path) : P Unit (copyLink entry destination) := by
  have hlink (target : Path) : P Unit (do
      Action.tell .debug .copying ("Linking " ++ destination.text ++ " -> " ++ target.text)
      Action.change (.createLink destination) (FileSystem.createLink target destination)) :=
    h.bind (h.tell _ _ _) fun _ => h.createLink _ _ _
  rw [Copy.copyLink]
  refine h.bind (h.ask _ _) fun target => h.bind h.fileSystem fun fs => ?_
  split
  · exact h.bind (h.removeFile _ _) fun _ => hlink target
  · exact hlink target

theorem copyEntry (h : Composes P) (source target : Path) (names : List Name) (kind : Entry.Kind) :
    P CopyTotals (copyEntry source target names kind) := by
  cases kind with
  | directory =>
    rw [Copy.copyEntry]
    exact h.bind (h.createDirectories _ _) fun _ => h.pure _
  | link =>
    rw [Copy.copyEntry]
    exact h.bind (h.copyLink _ _) fun _ => h.pure _
  | file =>
    rw [Copy.copyEntry]
    exact h.bind (h.tell _ _ _) fun _ => h.bind (h.copyFile _ _ _) fun _ => h.pure _

theorem entries (h : Composes P) (source : Path) (names : List Name) :
    P (List (Name × Entry.Kind)) (entries source names) :=
  h.bind h.fileSystem fun _ => h.attempt _ _

/-- One turn of the loop over the entries of a directory. -/
theorem copyTurn (h : Composes P) {source target : Path} {depth : Nat} {names : List Name}
    (hbelow : P CopyTotals (copyBelow source target depth names)) (kind : Entry.Kind) (before : CopyTotals) :
    P CopyTotals (do
      let here ← Copy.copyEntry source target names kind
      let below ←
        if kind = Entry.Kind.directory then copyBelow source target depth names
        else Pure.pure .zero
      return before + here + below) := by
  refine h.bind (h.copyEntry source target _ _) fun here => ?_
  split
  · exact h.bind hbelow fun _ => h.pure _
  · exact h.bind (h.pure _) fun _ => h.pure _

theorem copyBelow (h : Composes P) (source target : Path) (depth : Nat) (names : List Name) :
    P CopyTotals (copyBelow source target depth names) := by
  induction depth generalizing names with
  | zero => exact h.throw _ _
  | succ depth ih =>
    rw [Copy.copyBelow]
    exact h.bind (h.entries source names) fun listed => h.foldlM (fun before entry => h.copyTurn (ih _) entry.2 before)
      listed _

theorem walk (h : Composes P) (source target : Path) : P CopyTotals (walk source target) := by
  rw [Copy.walk]
  refine h.bind h.fileSystem fun fs => h.bind (h.attempt _ _) fun top => ?_
  refine h.bind (h.copyEntry _ _ _ _) fun here => ?_
  split
  · exact h.bind (h.copyBelow _ _ _ _) fun _ => h.pure _
  · exact h.bind (h.pure _) fun _ => h.pure _

/-- The walk, and the line of the log that tells how many entries were copied. -/
theorem walkTold (h : Composes P) (source target : Path) : P CopyTotals (do
    let totals ← Copy.walk source target
    Action.tell .info .copying ("Copied " ++ Text.ofNat totals.files ++ " files and "
      ++ Text.ofNat totals.links ++ " links in " ++ Text.ofNat totals.directories ++ " directories")
    return totals) :=
  h.bind (h.walk _ _) fun _ => h.bind (h.tell _ _ _) fun _ => h.pure _

end Composes

/-! ## A whole migration -/

/-- A property of steps that everything has of which a migration is put together. -/
structure Pervades (P : ∀ α : Type, Action α → Prop) : Prop extends Composes P where
  writeBytes : ∀ task p contents, P Unit (change task (FileSystem.writeBytes p contents))
  refuse : ∀ {α : Type} (refusal : Refusal), P α (MonadExcept.throw (.refused refusal))
  tellAll : ∀ lines, P Unit (tellAll lines)
  printLine : ∀ t, P Unit (printLine t)

namespace Pervades

variable {P : ∀ α : Type, Action α → Prop} {α β γ : Type}

/-- What is not refused goes on. -/
theorem guard (h : Pervades P) {c : Prop} [Decidable c] (refusal : Refusal) {f : α → Action β}
    {x : Action β} (hf : ∀ a, P β (f a)) (hx : P β x) :
    P β (if c then (MonadExcept.throw (.refused refusal) : Action α) >>= f else x) := by
  split
  · exact h.bind (h.refuse refusal) hf
  · exact hx

theorem mapM (h : Pervades P) {f : γ → Action α} (hf : ∀ x, P α (f x)) (xs : List γ) :
    P (List α) (xs.mapM f) := by
  induction xs with
  | nil =>
    rw [List.mapM_nil]
    exact h.pure []
  | cons x rest ih =>
    rw [List.mapM_cons]
    exact h.bind (hf x) fun _ => h.bind ih fun _ => h.pure _

theorem copyTree (h : Pervades P) (source target : Path) : P CopyTotals (copyTree source target) := by
  have hwalk := h.walkTold source target
  rw [FileRoutes.copyTree]
  exact h.bind (h.tell _ _ _) fun _ => h.bind (h.ask _ _) fun origin => h.bind (h.ask _ _) fun goal =>
    h.guard _ (fun _ => hwalk) hwalk

theorem writeText (h : Pervades P) (file : Path) (t : Text) : P Unit (writeText file t) := by
  have hwrite : P Unit (do
      change (.writeFile file) (FileSystem.writeBytes file (Utf8.encode t))
      Action.tell .debug .output ("Successfully wrote " ++ Text.ofNat (Utf8.encode t).length
        ++ " bytes to " ++ file.text)) :=
    h.bind (h.writeBytes _ _ _) fun _ => h.tell _ _ _
  rw [FileRoutes.writeText]
  refine h.bind (h.tell _ _ _) fun _ => ?_
  cases file.parent? with
  | none => exact hwrite
  | some above => exact h.bind (h.createDirectories _ _) fun _ => hwrite

theorem writeGenerated (h : Pervades P) (target : Path) (files : List GeneratedFile) :
    P (List Path) (writeGenerated target files) :=
  h.mapM (fun _ => h.bind (h.writeText _ _) fun _ => h.pure _) files

open Migration

theorem check (h : Pervades P) (a : Arguments Path) : P Unit (check a) := by
  have hreport : P Unit (do
      Action.tell .info .command ("Source: " ++ a.source.text)
      Action.tell .info .command ("Target: " ++ a.target.text)
      Action.tell .info .command ("Entry order: " ++ Arguments.orderTitle a.order)
      Action.tell .info .command ("Path style: " ++ Arguments.styleTitle a.style)
      Action.tell .info .command ("Conventions: " ++ a.conventions?.elim "Next.js app router".toList Path.text)) :=
    h.bind (h.tell _ _ _) fun _ => h.bind (h.tell _ _ _) fun _ => h.bind (h.tell _ _ _) fun _ =>
      h.bind (h.tell _ _ _) fun _ => h.tell _ _ _
  rw [Migration.check]
  refine h.bind (h.tell _ _ _) fun _ => h.bind h.fileSystem fun fs => ?_
  exact h.guard _ (fun _ => h.guard _ (fun _ => hreport) hreport) (h.guard _ (fun _ => hreport) hreport)

theorem conventions (h : Pervades P) (a : Arguments Path) : P Conventions (conventions a) := by
  rw [Migration.conventions.eq_def]
  cases a.conventions? with
  | none => exact h.pure _
  | some file => exact h.bind (h.tell _ _ _) fun _ => h.bind h.fileSystem fun _ => h.attempt _ _

theorem copy (h : Pervades P) (a : Arguments Path) : P Unit (copy a) := by
  rw [Migration.copy]
  split
  · exact h.tell _ _ _
  split
  · exact h.tell _ _ _
  · exact h.bind (h.copyTree _ _) fun _ => h.pure ()

theorem compileRoutes (h : Pervades P) (settings : Settings) (root : Path) :
    P Compilation (compileRoutes settings root) := by
  have hlisted (fs : FileSystem) : P Compilation (do
      let c ← Action.attempt (.compileRoutes root) ((compile settings fs root).mapError .problem)
      Action.tellAll (compilationLog c)
      if c.routes.isEmpty then
        Action.tell .warn .command ("No routable folders found in " ++ root.text)
      return c) := by
    refine h.bind (h.attempt _ _) fun c => h.bind (h.tellAll _) fun _ => ?_
    split
    · exact h.bind (h.tell _ _ _) fun _ => h.pure c
    · exact h.pure c
  rw [Migration.compileRoutes]
  refine h.bind (h.tell _ _ _) fun _ => h.bind h.fileSystem fun fs => ?_
  split
  · exact h.bind (h.tell _ _ _) fun _ => hlisted fs
  · exact hlisted fs

theorem dump (h : Pervades P) (a : Arguments Path) (routes : List Route) : P Unit (dump a routes) := by
  rw [Migration.dump]
  cases a.dump? with
  | none => exact h.pure ()
  | some file => exact h.bind (h.tell _ _ _) fun _ => h.bind (h.writeText _ _) fun _ => h.tell _ _ _

theorem generate (h : Pervades P) (a : Arguments Path) (c : Compilation) : P Unit (generate a c) := by
  rw [Migration.generate]
  split
  · exact h.printLine _
  refine h.bind (h.tell _ _ _) fun _ => ?_
  refine h.bind (h.writeGenerated _ _) fun written => h.bind (h.tellAll _) fun _ => ?_
  exact h.bind (h.tell _ _ _) fun _ => h.bind (h.tell _ _ _) fun _ => h.bind (h.tell _ _ _) fun _ =>
    h.bind (h.tell _ _ _) fun _ => h.tell _ _ _

/-- What follows the copy. -/
theorem rest (h : Pervades P) (a : Arguments Path) (settings : Settings) (root : Path) : P Unit (do
    let c ← Migration.compileRoutes settings root
    Migration.dump a c.routes
    Migration.generate a c) :=
  h.bind (h.compileRoutes _ _) fun _ => h.bind (h.dump _ _) fun _ => h.generate _ _

theorem run (h : Pervades P) (a : Arguments Path) : P Unit (run a) :=
  h.bind (h.conventions a) fun _ => h.bind (h.copy a) fun _ => h.rest a _ _

theorem migrate (h : Pervades P) (a : Arguments Path) : P Unit (migrate a) :=
  h.bind (h.check a) fun _ => h.run a

end Pervades

/-! ## Such properties -/

theorem pervades_logless : Pervades fun _ x => Logless x where
  pure := .pure
  bind := .bind
  tell := .tell
  fileSystem := .fileSystem
  attempt := .attempt
  createDirectories _ _ := .change _ _
  removeFile _ _ := .change _ _
  createLink _ _ _ := .change _ _
  copyFile _ _ _ := .change _ _
  writeBytes _ _ _ := .change _ _
  refuse _ := .throw _
  tellAll := .tellAll
  printLine := .printLine

/-- The step refuses nothing: if it fails, it does so during a task. -/
def Obliging {α : Type} (x : Action α) : Prop :=
  ∀ s, FailsOnly (fun failure => ∃ task cause, failure = .during task cause) x s

theorem obliging_change {α : Type} (task : Task) (c : Change α) : Obliging (change task c) := fun _ =>
  failsOnly_change (Q := fun _ => True) (fun _ _ _ => trivial) fun fault _ => ⟨task, .fault fault, rfl⟩

theorem composes_obliging : Composes fun _ x => Obliging x where
  pure a _ := .pure a
  bind hx hf s := .bind (hx s) fun a t _ => hf a t
  tell _ _ _ _ := failsOnly_tell
  fileSystem _ _ _ hrun := by cases (Prod.mk.inj hrun).1
  attempt task _ _ := failsOnly_attempt fun cause _ => ⟨task, cause, rfl⟩
  createDirectories _ _ := obliging_change _ _
  removeFile _ _ := obliging_change _ _
  createLink _ _ _ := obliging_change _ _
  copyFile _ _ _ := obliging_change _ _

section Keeping

variable {I : FileSystem → Prop}

/-- The step keeps a property of file systems, whether it succeeds or fails. -/
def Keeping {α : Type} (I : FileSystem → Prop) (x : Action α) : Prop :=
  ∀ s, I s.fs → Ends x s (fun _ t => I t.fs) fun t => I t.fs

theorem keeping_change {α : Type} {c : Change α} (h : ∀ fs, I fs → Ends c fs (fun _ => I) I) (task : Task) :
    Keeping I (change task c) := fun s hs => ends_change (h s.fs hs)

/-- A migration keeps what each of the changes keeps of which it is made. -/
theorem pervades_keeping
    (hcreateDirectories : ∀ p fs, I fs → Ends (FileSystem.createDirectories p) fs (fun _ => I) I)
    (hremoveFile : ∀ p fs, I fs → Ends (FileSystem.removeFile p) fs (fun _ => I) I)
    (hcreateLink : ∀ target p fs, I fs → Ends (FileSystem.createLink target p) fs (fun _ => I) I)
    (hcopyFile : ∀ source p fs, I fs → Ends (FileSystem.copyFile source p) fs (fun _ => I) I)
    (hwriteBytes : ∀ p contents fs, I fs → Ends (FileSystem.writeBytes p contents) fs (fun _ => I) I) :
    Pervades fun _ x => Keeping I x where
  pure _ _ hs := .pure hs
  bind hx hf s hs := .bind ((hx s hs).mono (fun a t ht => hf a t ht) fun _ => id)
  tell _ _ _ _ hs := ends_tell fun _ ht => ht ▸ hs
  fileSystem _ hs := ends_fileSystem hs
  attempt _ _ _ hs := ends_attempt (fun _ _ => hs) hs
  createDirectories task p := keeping_change (hcreateDirectories p) task
  removeFile task p := keeping_change (hremoveFile p) task
  createLink task target p := keeping_change (hcreateLink target p) task
  copyFile task source p := keeping_change (hcopyFile source p) task
  writeBytes task p contents := keeping_change (hwriteBytes p contents) task
  refuse _ _ hs := .throw hs
  tellAll _ _ hs := hs
  printLine _ _ hs := hs

end Keeping

end Action

/-- A migration leaves names that the system can hold, whether it succeeds or fails. -/
theorem Migration.migrate_namesFit {s : Session} (h : s.fs.NamesFit) (a : Arguments Path) :
    (migrate a s).2.fs.NamesFit := by
  have hmigrate := (Action.pervades_keeping (I := FileSystem.NamesFit)
    (fun _ _ => FileSystem.createDirectories_namesFit) (fun _ _ => FileSystem.removeFile_namesFit)
    (fun target _ _ h => FileSystem.createLink_namesFit h target) (fun _ _ _ h => FileSystem.copyFile_namesFit h)
    fun _ contents _ h => FileSystem.writeBytes_namesFit h contents).migrate a
  exact (hmigrate s h).state

end FileRoutes
