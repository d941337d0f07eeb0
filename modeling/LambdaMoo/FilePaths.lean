import LambdaMoo.Lib.Paths
import LambdaMoo.Names

/-! The paths of the file functions: what the checks of extensions.c let through, and that it
stays inside the directories set apart for it. -/
namespace LambdaMoo
namespace FilePaths

def fioSubdir : Str := "files-FIO/".toList
def fupSubdir : Str := "files-FUP/".toList

def bufLen : Nat := 2 * 1024

def mystrncasecmp (s t : Str) (n : Nat) : Int := mystrcasecmp (s.take n) (t.take n)

def strindexFrom (what : Str) (pos : Nat) : Str → Nat
  | [] => if what = [] then pos + 1 else 0
  | c :: cs =>
      if (c :: cs).length < what.length then 0
      else if mystrncasecmp (c :: cs) what what.length = 0 then pos + 1
      else strindexFrom what (pos + 1) cs

def strindex (source what : Str) : Nat := strindexFrom what 0 source

def strstr (s what : Str) : Bool := decide (what <:+: s)

def fileVerifyPath (pathname : Str) : Bool :=
  match pathname with
  | [] => true
  | '.' :: '.' :: _ => false
  | _ => strindex pathname "/.".toList = 0

def fileResolvePath (pathname : Str) : Option Str :=
  if !fileVerifyPath pathname then none
  else
    match pathname with
    | '/' :: rest => some (fioSubdir ++ rest)
    | _ => some (fioSubdir ++ pathname)

def copyPlain : Nat → Str → Str
  | _, [] => []
  | currlen, c :: cs =>
      if bufLen - 1 ≤ currlen then []
      else if c ∈ ['&', '|', ';', '<', '>', '(', ')', '\'', '\\', '"', '\x60', ':', '$', '!', ' '] then
        copyPlain currlen cs
      else c :: copyPlain (currlen + 1) cs

def removeSpecialCharacters (theStr : Str) : Str := copyPlain 0 theStr

/-- What the file system says of a path: whether it exists and is a directory, and what may be
done with it. -/
structure FileSystem where
  stat : Str → Option Bool
  mayRead : Str → Bool
  mayWrite : Str → Bool
  mayExecute : Str → Bool

/-- The end of the two functions below: the path is tried as `spec` says. -/
def tryPath (fs : FileSystem) (path : Str) (spec : Char) : Except Error Str :=
  match fs.stat path with
  | none => .error .eInvarg
  | some isDir =>
    match spec with
    | 'd' => if !isDir then .error .eInvind else .ok path
    | 'r' => if !fs.mayRead path then .error .ePerm else .ok path
    | 'w' => if !fs.mayWrite path then .error .ePerm else .ok path
    | 'x' => if !fs.mayExecute path then .error .ePerm else .ok path
    | _ => .error .eArgs

def buildDirName (fs : FileSystem) (thePathStr : Str) (spec : Char) : Except Error Str :=
  if bufLen ≤ thePathStr.length then .error .eInvarg
  else
    let path := removeSpecialCharacters thePathStr
    if strstr path "/.".toList || path.take 1 = ['.'] then .error .ePerm
    else
      let theDirName := fupSubdir ++ path
      if bufLen ≤ theDirName.length then .error .eInvarg else tryPath fs theDirName spec

def buildFileName (fs : FileSystem) (thePathStr theNameStr : Str) (spec : Char) :
    Except Error Str :=
  if bufLen ≤ thePathStr.length ∨ bufLen ≤ theNameStr.length then .error .eInvarg
  else
    let path := removeSpecialCharacters thePathStr
    let name := removeSpecialCharacters theNameStr
    if strstr path "/.".toList || path.take 1 = ['.'] || strstr name ['/'] then .error .ePerm
    else
      let theFileName := fupSubdir ++ path ++ '/' :: name
      if bufLen ≤ theFileName.length then .error .eInvarg else tryPath fs theFileName spec

/-- The path begins with the directory, and after that no component leads up. -/
def Confined (dir path : Str) : Prop :=
  ∃ rest, path = dir ++ rest ∧ "..".toList ∉ rest.splitOn '/'

def resolve (path : Str) : List Str := Paths.walk ['.'] "..".toList [] (path.splitOn '/')

theorem Confined.resolve_suffix {dir path : Str} (h : Confined (dir ++ ['/']) path) :
    resolve dir <:+ resolve path := by
  obtain ⟨rest, rfl, hrest⟩ := h
  unfold resolve
  rw [List.append_assoc, List.singleton_append, List.splitOn_append_cons_self, Paths.walk_append]
  exact Paths.walk_suffix _ _ hrest

variable {fs : FileSystem} {spec : Char} {path path' name r : Str}

theorem strindexFrom_ne_zero {what source : Str} (h : what <:+: source) (pos : Nat) :
    strindexFrom what pos source ≠ 0 := by
  induction source generalizing pos with
  | nil =>
    obtain rfl := List.infix_nil.mp h
    simp [strindexFrom]
  | cons c cs ih =>
    have hlen := h.length_le
    unfold strindexFrom
    rw [if_neg (by omega)]
    split
    · simp
    · rename_i hne
      obtain hprefix | htail := List.infix_cons_iff.mp h
      · have htake := List.prefix_iff_eq_take.mp hprefix
        refine absurd ?_ hne
        rw [mystrncasecmp, ← htake, List.take_length]
        simpa [sameName] using sameName_refl what
      · exact ih htail (pos + 1)

theorem fileVerifyPath_spec (h : fileVerifyPath path = true) :
    ¬ "..".toList <+: path ∧ ¬ "/.".toList <:+: path := by
  unfold fileVerifyPath at h
  split at h
  · decide
  · contradiction
  · rename_i hdots
    have hfind : strindex path "/.".toList = 0 := by simpa using h
    refine ⟨fun hup => ?_, fun hslash => strindexFrom_ne_zero hslash 0 hfind⟩
    obtain ⟨rest, hrest⟩ := hup
    exact hdots rest hrest.symm

theorem fileResolvePath_confined (h : fileResolvePath path = some r) : Confined fioSubdir r := by
  unfold fileResolvePath at h
  split at h
  · contradiction
  · rename_i hok
    obtain ⟨hup, hslash⟩ := fileVerifyPath_spec (by simpa using hok)
    split at h
    · rename_i rest
      obtain rfl := Option.some.inj h
      refine ⟨rest, rfl, Paths.notMem_splitOn (fun hc => ?_) fun hc => ?_⟩
      · exact hslash ((List.cons_prefix_cons.mpr ⟨rfl, List.IsPrefix.trans ⟨['.'], rfl⟩ hc⟩).isInfix)
      · exact hslash ((List.IsPrefix.isInfix ⟨['.'], rfl⟩).trans (hc.trans (List.suffix_cons _ _).isInfix))
    · obtain rfl := Option.some.inj h
      refine ⟨path, rfl, Paths.notMem_splitOn hup fun hc => ?_⟩
      exact hslash ((List.IsPrefix.isInfix ⟨['.'], rfl⟩).trans hc)

theorem tryPath_ok (h : tryPath fs path spec = .ok r) : r = path := by
  unfold tryPath at h
  split at h
  · contradiction
  · split at h <;> [split at h; split at h; split at h; split at h; skip]
    all_goals first | contradiction | exact (Except.ok.inj h).symm

theorem notMem_components (hslash : strstr path "/.".toList = false) (hdot : path.take 1 ≠ ['.']) :
    "..".toList ∉ path.splitOn '/' := by
  have hwithin : ¬ "/.".toList <:+: path := by simpa [strstr] using hslash
  refine Paths.notMem_splitOn (fun hc => hdot ?_) fun hc => hwithin ?_
  · obtain ⟨rest, rfl⟩ := hc
    rfl
  · exact (List.IsPrefix.isInfix ⟨['.'], rfl⟩).trans hc

theorem buildDirName_confined (h : buildDirName fs path spec = .ok r) : Confined fupSubdir r := by
  unfold buildDirName at h
  dsimp only at h
  split at h
  · contradiction
  split at h
  · contradiction
  rename_i hok
  simp only [Bool.or_eq_true, not_or, Bool.not_eq_true, decide_eq_true_eq] at hok
  split at h
  · contradiction
  exact ⟨_, tryPath_ok h, notMem_components hok.1 hok.2⟩

theorem buildFileName_confined_iff (h : buildFileName fs path name spec = .ok r) :
    Confined fupSubdir r ↔ removeSpecialCharacters name ≠ "..".toList := by
  unfold buildFileName at h
  dsimp only at h
  split at h
  · contradiction
  split at h
  · contradiction
  rename_i hok
  simp only [Bool.or_eq_true, not_or, Bool.not_eq_true, decide_eq_true_eq] at hok
  obtain ⟨⟨hslash, hdot⟩, hname⟩ := hok
  split at h
  · contradiction
  have hr := tryPath_ok h
  have hnone : '/' ∉ removeSpecialCharacters name := by
    intro hmem
    simp [strstr, List.singleton_infix_iff, hmem] at hname
  have hcomponents : (removeSpecialCharacters path ++ '/' :: removeSpecialCharacters name).splitOn '/' =
      (removeSpecialCharacters path).splitOn '/' ++ [removeSpecialCharacters name] := by
    rw [List.splitOn_append_cons_self, List.splitOn_eq_singleton hnone]
  constructor
  · rintro ⟨rest, hrest, hup⟩ heq
    rw [hr, List.append_assoc, List.append_cancel_left_eq] at hrest
    rw [← hrest, hcomponents, heq] at hup
    exact hup (List.mem_append_right _ (List.mem_singleton_self _))
  · intro hne
    refine ⟨_, hr.trans (List.append_assoc _ _ _), ?_⟩
    rw [hcomponents, List.mem_append, List.mem_singleton, not_or]
    exact ⟨notMem_components hslash hdot, hne.symm⟩

/-- What the three functions accept stays in its directory, but for a file name that is `..` once
its special characters are gone. -/
theorem accepted_confined_iff (fs : FileSystem) (path name : Str) (spec : Char) (r : Str) :
    (fileResolvePath path = some r → Confined fioSubdir r) ∧
    (buildDirName fs path spec = .ok r → Confined fupSubdir r) ∧
    (buildFileName fs path name spec = .ok r →
      (Confined fupSubdir r ↔ removeSpecialCharacters name ≠ "..".toList)) :=
  ⟨fileResolvePath_confined, buildDirName_confined, buildFileName_confined_iff⟩

def openFileSystem : FileSystem := ⟨fun _ => some true, fun _ => true, fun _ => true, fun _ => true⟩

theorem accepted_confined_iff_plain :
    Confined fupSubdir "files-FUP/notes/a.txt".toList ∧
    buildFileName openFileSystem "notes".toList "a.txt".toList 'r' =
      .ok "files-FUP/notes/a.txt".toList := by
  have hok : buildFileName openFileSystem "notes".toList "a.txt".toList 'r' =
      .ok "files-FUP/notes/a.txt".toList := by decide
  exact ⟨((accepted_confined_iff _ _ _ _ _).2.2 hok).mpr (by decide), hok⟩

/-- The file `..` of a directory. -/
theorem buildFileName_escapes :
    ¬ ∀ fs path name spec r, buildFileName fs path name spec = .ok r → Confined fupSubdir r := by
  intro hall
  have hok : buildFileName openFileSystem [] "..".toList 'r' = .ok "files-FUP//..".toList := by
    decide
  obtain ⟨rest, hrest, hup⟩ := hall _ _ _ _ _ hok
  have hsame : rest = "/..".toList := by
    have hdir : "files-FUP//..".toList = fupSubdir ++ "/..".toList := by decide
    exact (List.append_cancel_left (hdir.symm.trans hrest)).symm
  subst hsame
  exact hup (by decide)

end FilePaths
end LambdaMoo
