import FileRoutes.Proofs.FileSystem.Names
import FileRoutes.Proofs.FileSystem.Parents
import FileRoutes.Proofs.FileSystem.Refusals

/-!
# Asking for the entries of a directory

Who goes through a tree asks the system for one directory after the other, each by a path that is the path of
the directory above with one name behind it.  The system follows the whole path each time.  Still, it comes to
the entry with that name, and it is only for two reasons that it may refuse to: the path has become too long,
or names may not be followed in the directory above (`lookup_child`).

This is so for any path by which a directory was found.  It may lead over links, and it may begin in a
directory that was removed and leave that by its dots (`exists_follow_append`).
-/

namespace FileRoutes.FileSystem

variable {fs : FileSystem} {links : Nat} {s : Spot} {loc : Location} {steps tail : List Step} {p : Path}
  {name : Name} {mode : Mode} {entries : List (Name × Entry)}

/-! ## Going on behind a path -/

/-- From a removed directory there is a way up to one that is still there, or none at all. -/
theorem exists_walk_append {jump : Location → Path → List Step → Except Fault Place} (rest : List Step)
    (htail : .up ∉ tail)
    (hstart : ∀ a steps, fs.walk .target jump ⟨a, 0⟩ (steps ++ tail) = .ok (.entry loc) →
      ∃ jump', fs.walk .target jump ⟨a, 0⟩ (steps ++ rest) = fs.walk .target jump' ⟨loc, 0⟩ rest)
    (h : fs.walk .target jump s (steps ++ tail) = .ok (.entry loc)) :
    ∃ jump', fs.walk .target jump s (steps ++ rest) = fs.walk .target jump' ⟨loc, 0⟩ rest := by
  obtain ⟨a, lost⟩ := s
  induction steps generalizing lost with
  | nil =>
    cases lost with
    | zero => exact hstart a [] h
    | succ lost => cases eq_removed_of_walk (Nat.succ_ne_zero lost) htail h
  | cons step steps ih =>
    cases lost with
    | zero => exact hstart a (step :: steps) h
    | succ lost =>
      cases step with
      | settle =>
        rw [List.cons_append, walk] at h ⊢
        exact ih (lost + 1) h
      | stay =>
        rw [List.cons_append, walk] at h ⊢
        exact ih (lost + 1) h
      | up =>
        rw [List.cons_append, walk] at h ⊢
        exact ih lost h
      | down name =>
        -- no name leads on from a removed directory
        rw [List.cons_append, walk] at h
        obtain ⟨entries, -, hgo⟩ := exists_of_bind_eq_ok h
        simp only at hgo
        split at hgo
        · cases hgo
        · cases hgo

/-- Behind steps that lead to an entry the system goes on from there, whether or not a slash asked for a
directory. -/
theorem exists_follow_append (rest : List Step) (htail : tail = [] ∨ tail = [.settle])
    (h : fs.follow .target links s (steps ++ tail) = .ok (.entry loc)) :
    ∃ jump, fs.follow .target links s (steps ++ rest) = fs.walk .target jump ⟨loc, 0⟩ rest := by
  obtain ⟨jump, hjump⟩ := fs.exists_follow_eq .target links
  rw [hjump] at h ⊢
  refine exists_walk_append rest ?_ (fun a steps h => ?_) h
  · rcases htail with rfl | rfl <;> simp
  · rw [← hjump] at h ⊢
    have htrail : fs.Trail links a steps loc := by
      rcases htail with rfl | rfl
      · rw [List.append_nil] at h
        exact trail_of_follow h
      · exact (trail_of_follow h).of_settle
    exact follow_of_trail .target rest htrail (Or.inl rfl)

/-- A directory with an entry is in the tree, wherever the path to it begins. -/
theorem exists_resolve_of_lookup (h : fs.lookup .target p = .ok (.directory mode entries))
    (hentries : entries ≠ []) :
    ∃ spot loc, fs.start p = .ok spot ∧ fs.follow .target linkLimit spot p.steps = .ok (.entry loc) ∧
      fs.find? loc = some (.directory mode entries) := by
  obtain ⟨place, hresolve, hplace⟩ := exists_of_bind_eq_ok h
  obtain ⟨spot, hstart, hfollow⟩ := exists_of_bind_eq_ok hresolve
  cases place with
  | gap directory name => cases hplace
  | removed =>
    cases hplace
    exact absurd rfl hentries
  | entry loc =>
    refine ⟨spot, loc, hstart, hfollow, ?_⟩
    simp only at hplace
    split at hplace
    · rename_i hfind
      rw [hfind, Except.ok.inj hplace]
    · cases hplace

theorem start_child {spot : Spot} (h : fs.start p = .ok spot) (hname : name.Ordinary) :
    fs.start (p.child name) =
      if (p.child name).bytes.length ≥ pathLimit then .error .nameTooLong else .ok spot := by
  have hask := askable_of_start h
  have hlast : (p.child name).last = name := by
    rw [Path.child, Path.last_join]
  have hzero : ¬ ((p.child name).segments.any (·.contains 0) = true) := by
    rw [Path.child]
    simp only [List.any_eq_true, List.contains_iff_mem, not_exists, not_and]
    intro segment hsegment
    rcases Path.mem_segments_join rfl hsegment with hsegment | hsegment
    · exact hask.zero_notMem segment hsegment
    · obtain rfl : segment = name := by simpa [Path.segments] using hsegment
      exact hname.zero_notMem
  have hempty : p.child name ≠ .empty := fun heq => hname.ne_nil (by rw [← hlast, heq]; rfl)
  rw [start, if_neg hzero, if_neg hempty, start_eq_ok h, Path.child, Path.isAbsolute_join rfl]

/-- **The path of an entry.**  A path that leads to a directory, with the name of an entry behind it, leads to
that entry, unless it has become too long or names may not be followed in the directory. -/
theorem lookup_child (h : fs.lookup .target p = .ok (.directory mode entries)) (hname : name.Ordinary)
    (hshort : name.length ≤ nameLimit) {e : Entry} (hentry : entries.lookup name = some e)
    (hlink : ∀ target, e ≠ .link target) :
    fs.lookup .target (p.child name) =
      if (p.child name).bytes.length ≥ pathLimit then .error .nameTooLong
      else if mode.search then .ok e else .error .denied := by
  obtain ⟨spot, loc, hstart, hfollow, hfind⟩ := exists_resolve_of_lookup h
    (List.ne_nil_of_mem (Entry.mem_of_lookup hentry))
  have hlast : (p.child name).last.IsDown := by
    rw [Path.child, Path.last_join]
    exact hname.isDown
  have hsteps : (p.child name).steps = p.moves ++ [.down name] := by
    rw [Path.steps_of_isDown hlast]
    exact ((Path.GoesOn.refl p).child hname.isDown).moves_eq
  obtain ⟨tail, htail, hmoves⟩ : ∃ tail, (tail = [] ∨ tail = [Step.settle]) ∧ p.steps = p.moves ++ tail := by
    rcases p.steps_eq with ⟨heq, -⟩ | heq
    · exact ⟨[], Or.inl rfl, by rw [heq, List.append_nil]⟩
    · exact ⟨[.settle], Or.inr rfl, heq⟩
  rw [hmoves] at hfollow
  obtain ⟨jump, hgo⟩ := exists_follow_append [.down name] htail hfollow
  rw [lookup, resolve, start_child hstart hname, hsteps]
  by_cases hlong : (p.child name).bytes.length ≥ pathLimit
  · rw [if_pos hlong, if_pos hlong]
    rfl
  · rw [if_neg hlong, if_neg hlong]
    simp only [bind, Except.bind, hgo]
    cases hsearch : mode.search with
    | false =>
      rw [walk]
      simp only [searchable_of_closed hfind hsearch, bind, Except.bind]
      rfl
    | true =>
      have hthere : fs.find? (loc ++ [name]) = some e := (find?_append_singleton hfind name).trans hentry
      rw [walk_down_of_found hfind hsearch hshort hthere hlink (by simp), walk]
      simp only [if_pos, hthere]

end FileRoutes.FileSystem
