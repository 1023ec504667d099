import Keybinder.Event

/-!
# Script files

A script is run from a temporary file that is kept for the next time.  The
file is looked up by the script alone; its extension, which on Windows
depends on the interpreter, is that of the first call.
-/

namespace Keybinder

/-- How `QTemporaryFile` completes a file name, given the paths that exist
and the extension, or that it cannot.  The six letters make the path new. -/
structure TempNames where
  tempPath : String
  letters : List String → String → Option String
  length_letters : ∀ {existing ext unique}, letters existing ext = some unique →
    unique.length = 6
  fresh : ∀ {existing ext unique}, letters existing ext = some unique →
    tempPath ++ "/runscript_" ++ unique ++ ext ∉ existing

namespace TempNames

variable (N : TempNames)

/-- The path is one of a temporary file with an extension. -/
def HasExtension (ext path : String) : Prop :=
  ∃ unique : String, unique.length = 6 ∧
    path = N.tempPath ++ "/runscript_" ++ unique ++ ext

theorem hasExtension_unique {ext ext' path : String} (h : N.HasExtension ext path)
    (h' : N.HasExtension ext' path) : ext = ext' := by
  obtain ⟨unique, hlength, rfl⟩ := h
  obtain ⟨unique', hlength', hpath⟩ := h'
  have hlist := congrArg String.toList hpath
  simp only [String.toList_append, List.append_assoc] at hlist
  have htail := List.append_cancel_left (List.append_cancel_left hlist)
  have hletters : unique.toList.length = unique'.toList.length := by
    rw [String.length_toList, String.length_toList, hlength, hlength']
  exact String.toList_inj.mp (List.append_inj htail hletters).2

end TempNames

/-- The cache and the files, by their paths. -/
structure TempFileManager where
  tempFiles : List (String × String)
  files : List (String × String)

/-- The path is empty when no file could be created. -/
def TempFileManager.getTempFile (N : TempNames) (t : TempFileManager) (key content ext : String) :
    String × TempFileManager :=
  match t.tempFiles.lookup key with
  | some path => (path, t)
  | none =>
      match N.letters (t.files.map Prod.fst) ext with
      | none => ("", t)
      | some unique =>
          let path := N.tempPath ++ "/runscript_" ++ unique ++ ext
          (path, ⟨(key, path) :: t.tempFiles, (path, content) :: t.files⟩)

inductive Platform where
  | windows
  | unix
  deriving DecidableEq

/-- The extension that `run_script` requests. -/
def Platform.ext (interpreter : String) : Platform → String
  | .windows =>
      let interpLower := toLower interpreter
      if "powershell".toList <:+: interpLower ∨ interpLower = "pwsh".toList then ".ps1"
      else if "cmd".toList <:+: interpLower then ".bat"
      else ""
  | .unix => ""

/-- The path of the file that `run_script` starts. -/
def TempFileManager.runScript (N : TempNames) (platform : Platform) (t : TempFileManager)
    (s : RunScript) : String × TempFileManager :=
  t.getTempFile N s.script s.script (platform.ext s.interpreter)

def TempFileManager.runScripts (N : TempNames) (platform : Platform) :
    TempFileManager → List RunScript → List String
  | _, [] => []
  | t, s :: calls =>
      (t.runScript N platform s).1 :: runScripts N platform (t.runScript N platform s).2 calls

/-- The path names a file with the script, and has the extension that the
call requests. -/
def Serves (N : TempNames) (platform : Platform) (s : RunScript)
    (result : String × TempFileManager) : Prop :=
  result.2.files.lookup result.1 = some s.script ∧
    N.HasExtension (platform.ext s.interpreter) result.1

namespace TempFileManager

variable {N : TempNames} {platform : Platform} {t : TempFileManager} {s : RunScript}
  {calls : List RunScript} {path : String}

theorem runScript_cached (h : t.tempFiles.lookup s.script = some path) :
    t.runScript N platform s = (path, t) := by
  rw [runScript, getTempFile, h]

/-- A call that finds nothing in the cache creates a file that is as it
should be, unless none can be created. -/
theorem runScript_created (h : t.tempFiles.lookup s.script = none)
    (hcreated : (t.runScript N platform s).1 ≠ "") :
    ∃ path, path ∉ t.files.map Prod.fst ∧
      N.HasExtension (platform.ext s.interpreter) path ∧
      t.runScript N platform s =
        (path, ⟨(s.script, path) :: t.tempFiles, (path, s.script) :: t.files⟩) := by
  unfold runScript getTempFile at hcreated ⊢
  simp only [h] at hcreated ⊢
  cases hletters : N.letters (t.files.map Prod.fst) (platform.ext s.interpreter) with
  | none => simp [hletters] at hcreated
  | some unique =>
      exact ⟨_, N.fresh hletters, ⟨unique, N.length_letters hletters, rfl⟩, rfl⟩

/-- Every call of a history is served as a call on an empty cache is. -/
def ServesAll (N : TempNames) (platform : Platform) : TempFileManager → List RunScript → Prop
  | _, [] => True
  | t, s :: calls => Serves N platform s (t.runScript N platform s) ∧
      ServesAll N platform (t.runScript N platform s).2 calls

/-- The cache names files that hold their scripts. -/
def Consistent (t : TempFileManager) : Prop :=
  ∀ script path, t.tempFiles.lookup script = some path → t.files.lookup path = some script

theorem consistent_empty (files : List (String × String)) : Consistent ⟨[], files⟩ := by
  intro script path hpath
  cases hpath

theorem lookup_created (key key' path : String) (cache : List (String × String)) :
    List.lookup key' ((key, path) :: cache) =
      if key' = key then some path else cache.lookup key' := by
  by_cases hkey : key' = key
  · rw [if_pos hkey, hkey, List.lookup_cons_self]
  · rw [if_neg hkey, List.lookup_cons, beq_false_of_ne hkey]

theorem Consistent.created {script : String} (h : t.Consistent)
    (hpath : path ∉ t.files.map Prod.fst) :
    Consistent ⟨(script, path) :: t.tempFiles, (path, script) :: t.files⟩ := by
  intro script' path' hlookup
  rw [lookup_created] at hlookup ⊢
  split at hlookup
  · rename_i hscript
    obtain rfl : path = path' := Option.some.inj hlookup
    rw [if_pos rfl, hscript]
  · have hold := h script' path' hlookup
    rw [if_neg, hold]
    rintro rfl
    obtain ⟨before, rest, hfiles, -⟩ := List.lookup_eq_some_iff.mp hold
    simp [hfiles] at hpath

/-- The cached files have the extensions that the calls request. -/
def CacheSuits (N : TempNames) (platform : Platform) (t : TempFileManager)
    (calls : List RunScript) : Prop :=
  ∀ s ∈ calls, ∀ path, t.tempFiles.lookup s.script = some path →
    N.HasExtension (platform.ext s.interpreter) path

theorem cacheSuits_empty (files : List (String × String)) :
    CacheSuits N platform ⟨[], files⟩ calls := by
  intro s _ path hpath
  cases hpath

theorem cacheSuits_cons_cached (hlookup : t.tempFiles.lookup s.script = some path) :
    CacheSuits N platform t (s :: calls) ↔
      N.HasExtension (platform.ext s.interpreter) path ∧ CacheSuits N platform t calls := by
  rw [CacheSuits, List.forall_mem_cons]
  refine and_congr_left' ⟨fun hext ↦ hext path hlookup, fun hext path' hpath' ↦ ?_⟩
  obtain rfl : path = path' := Option.some.inj (hlookup.symm.trans hpath')
  exact hext

theorem cacheSuits_cons_new (hlookup : t.tempFiles.lookup s.script = none) :
    CacheSuits N platform t (s :: calls) ↔ CacheSuits N platform t calls := by
  rw [CacheSuits, List.forall_mem_cons]
  refine and_iff_right ?_
  simp [hlookup]

theorem CacheSuits.same_ext (hcached : CacheSuits N platform t calls)
    (hlookup : t.tempFiles.lookup s.script = some path)
    (hext : N.HasExtension (platform.ext s.interpreter) path) :
    ∀ s' ∈ calls, s.script = s'.script →
      platform.ext s.interpreter = platform.ext s'.interpreter := by
  intro s' hs' hscript
  exact N.hasExtension_unique hext (hcached s' hs' path (hscript ▸ hlookup))

theorem cacheSuits_created (hlookup : t.tempFiles.lookup s.script = none)
    (hext : N.HasExtension (platform.ext s.interpreter) path) (files : List (String × String)) :
    CacheSuits N platform ⟨(s.script, path) :: t.tempFiles, files⟩ calls ↔
      CacheSuits N platform t calls ∧ ∀ s' ∈ calls, s.script = s'.script →
        platform.ext s.interpreter = platform.ext s'.interpreter := by
  constructor
  · intro hcached
    refine ⟨fun s' hs' path' hpath' ↦ ?_, hcached.same_ext List.lookup_cons_self hext⟩
    apply hcached s' hs'
    rw [lookup_created, if_neg, hpath']
    intro hscript
    rw [hscript, hlookup] at hpath'
    cases hpath'
  · rintro ⟨hcached, hsame⟩ s' hs' path' hpath'
    rw [lookup_created] at hpath'
    split at hpath'
    · rename_i hscript
      obtain rfl : path = path' := Option.some.inj hpath'
      rw [← hsame s' hs' hscript.symm]
      exact hext
    · exact hcached s' hs' path' hpath'

/-- A history is served exactly when every call requests the extension of the
cached file, and the calls of one script all request the same. -/
theorem servesAll_iff_cached (ht : t.Consistent) (hcreated : "" ∉ t.runScripts N platform calls) :
    ServesAll N platform t calls ↔ CacheSuits N platform t calls ∧
      calls.Pairwise fun s s' ↦ s.script = s'.script →
        platform.ext s.interpreter = platform.ext s'.interpreter := by
  induction calls generalizing t with
  | nil => simp [ServesAll, CacheSuits]
  | cons s calls ih =>
      obtain ⟨hfirst, hrest⟩ := not_or.mp (mt List.mem_cons.mpr hcreated)
      rw [ServesAll, List.pairwise_cons]
      cases hlookup : t.tempFiles.lookup s.script with
      | some path =>
          rw [runScript_cached hlookup] at hrest ⊢
          rw [ih ht hrest, Serves, cacheSuits_cons_cached hlookup]
          constructor
          · rintro ⟨⟨-, hext⟩, hcached, hpairs⟩
            exact ⟨⟨hext, hcached⟩, hcached.same_ext hlookup hext, hpairs⟩
          · rintro ⟨⟨hext, hcached⟩, -, hpairs⟩
            exact ⟨⟨ht _ _ hlookup, hext⟩, hcached, hpairs⟩
      | none =>
          obtain ⟨path, hpath, hext, heq⟩ := runScript_created hlookup (Ne.symm hfirst)
          rw [heq] at hrest ⊢
          rw [ih (ht.created hpath) hrest, cacheSuits_created hlookup hext,
            cacheSuits_cons_new hlookup, and_assoc]
          have hserved : Serves N platform s
              (path, ⟨(s.script, path) :: t.tempFiles, (path, s.script) :: t.files⟩) :=
            ⟨List.lookup_cons_self, hext⟩
          exact and_iff_right hserved

end TempFileManager

/-- Names for two files. -/
def TempNames.two : TempNames where
  tempPath := "/tmp"
  letters existing ext :=
    ["aaaaaa", "aaaaab"].find? fun unique ↦ "/tmp" ++ "/runscript_" ++ unique ++ ext ∉ existing
  length_letters h := by
    have hmem := List.mem_of_find?_eq_some h
    simp only [List.mem_cons, List.not_mem_nil, or_false] at hmem
    rcases hmem with rfl | rfl <;> rfl
  fresh h := by simpa using List.find?_some h

/-- One script for two interpreters that read different files. -/
def pythonThenCmd : List RunScript := [⟨"python", "start"⟩, ⟨"cmd.exe", "start"⟩]

theorem pythonThenCmd_created :
    "" ∉ (⟨[], []⟩ : TempFileManager).runScripts .two .windows pythonThenCmd := by
  decide

/-- The second is given the file of the first. -/
theorem pythonThenCmd_not_served : ¬ ∀ (N : TempNames) (platform : Platform)
    (files : List (String × String)) (calls : List RunScript),
    "" ∉ (⟨[], files⟩ : TempFileManager).runScripts N platform calls →
      TempFileManager.ServesAll N platform ⟨[], files⟩ calls := by
  intro h
  have hserves := h .two .windows [] pythonThenCmd pythonThenCmd_created
  obtain ⟨⟨-, hpython⟩, ⟨-, hcmd⟩, -⟩ := hserves
  have hext := TempNames.hasExtension_unique _ hpython hcmd
  revert hext
  decide

/-- On an empty cache every call of a history is served as if the cache were
still empty exactly when the calls of one script request one extension. -/
theorem servesAll_iff (N : TempNames) (platform : Platform) (files : List (String × String))
    (calls : List RunScript)
    (hcreated : "" ∉ (⟨[], files⟩ : TempFileManager).runScripts N platform calls) :
    TempFileManager.ServesAll N platform ⟨[], files⟩ calls ↔
      calls.Pairwise fun s s' ↦ s.script = s'.script →
        platform.ext s.interpreter = platform.ext s'.interpreter := by
  rw [TempFileManager.servesAll_iff_cached (TempFileManager.consistent_empty files) hcreated]
  exact and_iff_right (TempFileManager.cacheSuits_empty files)

theorem servesAll_iff_twoScripts :
    TempFileManager.ServesAll .two .windows ⟨[], []⟩ [⟨"python", "start"⟩, ⟨"cmd.exe", "stop"⟩] :=
  (servesAll_iff .two .windows [] _ (by decide)).mpr (by decide)

end Keybinder
