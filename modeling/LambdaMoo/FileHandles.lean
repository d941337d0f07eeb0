import LambdaMoo.FilePaths
import LambdaMoo.Lib.Stdio

/-! The table of open files. The search for a free entry goes on from where the last one has
ended, and is meant to come round to the front of the table. -/
namespace LambdaMoo
namespace FileHandles

open FilePaths

def fileIoMaxFiles : Nat := 256

inductive FileType
  | binary
  | text
  deriving DecidableEq, Repr

structure FileMode where
  read : Bool := false
  write : Bool := false
  flush : Bool := false
  deriving DecidableEq, Repr

structure FileHandle where
  valid : Bool
  name : Str
  type : FileType
  mode : FileMode
  file : Option (Stdio.File UInt8)

/-- `file_table`, with the static variable of `file_allocate_next_handle`. -/
structure FileTable where
  handles : Nat → FileHandle
  currentHandle : Nat

namespace FileTable

def initial : FileTable := ⟨fun _ => ⟨false, [], .binary, {}, none⟩, 0⟩

def set (ft : FileTable) (i : Nat) (h : FileHandle) : FileTable :=
  { ft with handles := Function.update ft.handles i h }

def fileHandleValid (ft : FileTable) : Var → Bool
  | .int i => if i < 0 ∨ fileIoMaxFiles ≤ i then false else (ft.handles i.toNat).valid
  | _ => false

/-- The loop of `file_allocate_next_handle`. It only goes up, and ends at the last handle. -/
def allocateLoop (ft : FileTable) (wrapped currentHandle : Nat) : Nat :=
  if currentHandle < fileIoMaxFiles then
    if !(ft.handles currentHandle).valid then currentHandle
    else
      let next := if fileIoMaxFiles < currentHandle + 1 then 0 else currentHandle + 1
      ft.allocateLoop wrapped (if next = wrapped then fileIoMaxFiles else next)
  else currentHandle
termination_by fileIoMaxFiles - currentHandle
decreasing_by
  split
  · omega
  · split <;> omega

def fileAllocateNextHandle (ft : FileTable) : Int × FileTable :=
  let start := if fileIoMaxFiles < ft.currentHandle then 0 else ft.currentHandle
  let currentHandle := ft.allocateLoop start start
  if currentHandle = fileIoMaxFiles then (-1, { ft with currentHandle := 0 })
  else (currentHandle, { ft with currentHandle })

def fileHandleNew (ft : FileTable) (name : Str) (type : FileType) (mode : FileMode) : Int × FileTable :=
  let (handle, ft) := ft.fileAllocateNextHandle
  if 0 ≤ handle then
    (handle, ft.set handle.toNat { ft.handles handle.toNat with valid := true, name, type, mode })
  else (handle, ft)

def fileHandleSetFile (ft : FileTable) (i : Nat) (f : Stdio.File UInt8) : FileTable :=
  ft.set i { ft.handles i with file := some f }

def fileHandleDestroy (ft : FileTable) (i : Nat) : FileTable :=
  ft.set i { ft.handles i with file := none, valid := false }

def fileHandleFileSafe (ft : FileTable) (handle : Var) : Option (Nat × Stdio.File UInt8) :=
  match handle with
  | .int i =>
      if !ft.fileHandleValid handle then none
      else (ft.handles i.toNat).file.map fun f => (i.toNat, f)
  | _ => none

end FileTable

def fileModestrToMode (s : Str) : Option (FileType × FileMode × Str) :=
  match s with
  | [how, plus, kind, flush] => do
      let mode : FileMode ← match how with
        | 'r' => some { read := true }
        | 'w' | 'a' => some { write := true }
        | _ => none
      let mode : FileMode ← match plus with
        | '+' => some (if how = 'r' then { mode with write := true } else { mode with read := true })
        | '-' => some mode
        | _ => none
      let type ← match kind with
        | 't' => some FileType.text
        | 'b' => some .binary
        | _ => none
      let mode : FileMode ← match flush with
        | 'f' => some { mode with flush := true }
        | 'n' => some mode
        | _ => none
      return (type, mode, how :: ((if plus = '+' then ['+'] else []) ++ if kind = 'b' then ['b'] else []))
  | _ => none

inductive FilePackage
  | var (v : Var)
  | noVar
  | error (e : Error)
  | raise (code : Error) (msg : Str) (value : Var)
  | fileError (errtype msg : Str)

def fileRaiseErrno (errno : Option Str) (valueStr : Str) : FilePackage :=
  match errno with
  | some msg => .fileError valueStr msg
  | none => .fileError "EOF".toList "EOF".toList

/-- What the functions ask of the rest of the server and of the system. -/
structure FileEnv where
  isWizard : Bool
  fopen : Str → Str → Option (List UInt8)
  errno : Option Str

namespace FileTable

def bfFileOpen (ft : FileTable) (env : FileEnv) (filename mode : Str) : FilePackage × FileTable :=
  if !env.isWizard then (.error .ePerm, ft)
  else
    match fileResolvePath filename with
    | none => (.raise .eInvarg "Invalid pathname".toList (.str filename), ft)
    | some realFilename =>
        match fileModestrToMode mode with
        | none => (.raise .eInvarg "Invalid mode string".toList (.str mode), ft)
        | some (type, rmode, fmode) =>
            let (fhandle, ft) := ft.fileHandleNew filename type rmode
            if fhandle < 0 then (.raise .eQuota "Too many files open".toList zero, ft)
            else
              match env.fopen realFilename fmode with
              | none => (fileRaiseErrno env.errno "file_open".toList, ft.fileHandleDestroy fhandle.toNat)
              | some bytes => (.var (.int fhandle), ft.fileHandleSetFile fhandle.toNat (.opened bytes))

def bfFileClose (ft : FileTable) (env : FileEnv) (fhandle : Var) : FilePackage × FileTable :=
  if !env.isWizard then (.error .ePerm, ft)
  else
    match ft.fileHandleFileSafe fhandle with
    | none => (.raise .eInvarg "Invalid FHANDLE".toList fhandle, ft)
    | some (i, _) => (.noVar, ft.fileHandleDestroy i)

end FileTable

/-- A call that opens or closes a file. -/
inductive FileCall
  | fileOpen (env : FileEnv) (filename mode : Str)
  | fileClose (env : FileEnv) (fhandle : Var)

def FileTable.perform (ft : FileTable) : FileCall → FileTable
  | .fileOpen env filename mode => (ft.bfFileOpen env filename mode).2
  | .fileClose env fhandle => (ft.bfFileClose env fhandle).2

def FileTable.after (calls : List FileCall) : FileTable := calls.foldl FileTable.perform .initial

namespace FileTable

variable {ft : FileTable} {wrapped current i j : Nat}

theorem max_eq : fileIoMaxFiles = 256 := rfl

/-! One search. -/

/-- The loop ends at the first free handle from where it begins, or behind the last one. -/
theorem allocateLoop_spec (hw : wrapped ≤ current) (hle : current ≤ fileIoMaxFiles) :
    current ≤ ft.allocateLoop wrapped current ∧ ft.allocateLoop wrapped current ≤ fileIoMaxFiles ∧
      (∀ j, current ≤ j → j < ft.allocateLoop wrapped current → (ft.handles j).valid = true) ∧
      (ft.allocateLoop wrapped current < fileIoMaxFiles →
        (ft.handles (ft.allocateLoop wrapped current)).valid = false) := by
  induction hroom : fileIoMaxFiles - current generalizing current with
  | zero =>
      have hend : ft.allocateLoop wrapped current = current := by
        rw [allocateLoop, if_neg (by omega)]
      rw [hend]
      exact ⟨le_refl _, hle, fun j hj hlt => absurd hlt (by omega), fun hlt => absurd hlt (by omega)⟩
  | succ room ih =>
      rw [allocateLoop, if_pos (by omega)]
      cases hvalid : (ft.handles current).valid with
      | false =>
          rw [if_pos (by rfl)]
          exact ⟨le_refl _, hle, fun j hj hlt => absurd hlt (by omega), fun _ => hvalid⟩
      | true =>
          -- going up never leads back to where the search has begun
          rw [if_neg (by simp)]
          simp only [if_neg (show ¬ fileIoMaxFiles < current + 1 by omega),
            if_neg (show ¬ current + 1 = wrapped by omega)]
          obtain ⟨hlow, hhigh, hused, hfree⟩ := @ih (current + 1) (by omega) (by omega) (by omega)
          refine ⟨by omega, hhigh, fun j hj hlt => ?_, hfree⟩
          obtain rfl | hne := eq_or_ne j current
          · exact hvalid
          · exact hused j (by omega) hlt

def InRange (ft : FileTable) : Prop := ft.currentHandle < fileIoMaxFiles

/-- The search returns a handle that is free, or reports that there is none. -/
def Complete (ft : FileTable) : Prop :=
  (ft.fileAllocateNextHandle.1 = -1 ∧ ∀ i < fileIoMaxFiles, (ft.handles i).valid = true) ∨
    ∃ i < fileIoMaxFiles, ft.fileAllocateNextHandle.1 = i ∧ (ft.handles i).valid = false

/-- Where the search is to go on there is a free handle, or there is none at all. -/
def FreeAhead (ft : FileTable) : Prop :=
  (∃ i, ft.currentHandle ≤ i ∧ i < fileIoMaxFiles ∧ (ft.handles i).valid = false) ∨
    ∀ i < fileIoMaxFiles, (ft.handles i).valid = true

theorem allocate_cases (hr : ft.InRange) :
    (∃ i, ft.currentHandle ≤ i ∧ i < fileIoMaxFiles ∧ (ft.handles i).valid = false ∧
        (∀ j, ft.currentHandle ≤ j → j < i → (ft.handles j).valid = true) ∧
        ft.fileAllocateNextHandle = ((i : Int), { ft with currentHandle := i })) ∨
      (∀ i, ft.currentHandle ≤ i → i < fileIoMaxFiles → (ft.handles i).valid = true) ∧
        ft.fileAllocateNextHandle = (-1, { ft with currentHandle := 0 }) := by
  unfold InRange at hr
  have hstart : (if fileIoMaxFiles < ft.currentHandle then 0 else ft.currentHandle) = ft.currentHandle :=
    if_neg (by omega)
  obtain ⟨hlow, hhigh, hused, hfree⟩ :=
    @allocateLoop_spec ft ft.currentHandle ft.currentHandle (le_refl _) (le_of_lt hr)
  unfold fileAllocateNextHandle
  simp only [hstart]
  by_cases hend : ft.allocateLoop ft.currentHandle ft.currentHandle = fileIoMaxFiles
  · rw [if_pos hend]
    rw [hend] at hused
    exact .inr ⟨hused, rfl⟩
  · rw [if_neg hend]
    exact .inl ⟨_, hlow, by omega, hfree (by omega), hused, rfl⟩

theorem complete_iff (hr : ft.InRange) : ft.Complete ↔ ft.FreeAhead := by
  obtain ⟨i, hlow, hhigh, hfree, -, hdo⟩ | ⟨hused, hdo⟩ := allocate_cases hr
  · refine iff_of_true (.inr ⟨i, hhigh, ?_, hfree⟩) (.inl ⟨i, hlow, hhigh, hfree⟩)
    rw [hdo]
  · unfold Complete FreeAhead
    rw [hdo]
    constructor
    · rintro (⟨-, hall⟩ | ⟨i, -, h, -⟩)
      · exact .inr hall
      · have h : (-1 : Int) = i := h
        omega
    · rintro (⟨i, hlow, hhigh, hfree⟩ | hall)
      · rw [hused i hlow hhigh] at hfree
        cases hfree
      · exact .inl ⟨rfl, hall⟩

/-! Histories. -/

theorem allocate_inRange (hr : ft.InRange) : ft.fileAllocateNextHandle.2.InRange := by
  obtain ⟨i, -, hhigh, -, -, hdo⟩ | ⟨-, hdo⟩ := allocate_cases hr
  · rw [hdo]
    exact hhigh
  · rw [hdo]
    exact Nat.zero_lt_succ _

theorem fileHandleNew_inRange (hr : ft.InRange) (name : Str) (type : FileType) (mode : FileMode) :
    (ft.fileHandleNew name type mode).2.InRange := by
  unfold fileHandleNew
  dsimp only
  split
  · exact allocate_inRange hr
  · exact allocate_inRange hr

theorem perform_inRange (hr : ft.InRange) (call : FileCall) : (ft.perform call).InRange := by
  cases call with
  | fileOpen env filename mode =>
      simp only [perform, bfFileOpen]
      split
      · exact hr
      split
      · exact hr
      split
      · exact hr
      next type rmode fmode _ =>
      have hnew := fileHandleNew_inRange hr filename type rmode
      split
      · exact hnew
      split
      · exact hnew
      · exact hnew
  | fileClose env fhandle =>
      simp only [perform, bfFileClose]
      split
      · exact hr
      split
      · exact hr
      · exact hr

theorem after_inRange (calls : List FileCall) : (after calls).InRange := by
  have hrun : ∀ ft : FileTable, ft.InRange → (calls.foldl perform ft).InRange := by
    induction calls with
    | nil => exact fun ft hr => hr
    | cons call calls ih => exact fun ft hr => ih _ (perform_inRange hr call)
  exact hrun initial (Nat.zero_lt_succ _)

/-- After any history, the search finds a free handle if there is one, just where one is free
at or after the place where it begins. -/
theorem allocate_complete_iff (calls : List FileCall) : (after calls).Complete ↔ (after calls).FreeAhead :=
  complete_iff (after_inRange calls)

/-! A table that is full but for its first handle. -/

def anyFile : FileEnv := ⟨true, fun _ _ => some [], none⟩

def openOne : FileCall := .fileOpen anyFile ['f'] "r-tn".toList

/-- The first handles are in use, and the last of these is where the search begins. -/
def FirstInUse (n : Nat) (ft : FileTable) : Prop :=
  ft.currentHandle = n - 1 ∧ (∀ i, (ft.handles i).valid = decide (i < n)) ∧
    ∀ i < n, (ft.handles i).file.isSome

theorem openOne_firstInUse {n : Nat} (hn : n < fileIoMaxFiles) (h : FirstInUse n ft) :
    FirstInUse (n + 1) (ft.perform openOne) := by
  obtain ⟨hcurrent, hvalid, hfile⟩ := h
  have hr : ft.InRange := by
    unfold InRange
    omega
  have hnew : ft.fileAllocateNextHandle = ((n : Int), { ft with currentHandle := n }) := by
    obtain ⟨i, hlow, -, hfree, hused, hdo⟩ | ⟨hused, -⟩ := allocate_cases hr
    · obtain rfl : i = n := by
        have hi : n ≤ i := by simpa [hvalid] using hfree
        by_contra hne
        have := hused n (by omega) (by omega)
        simp [hvalid] at this
      exact hdo
    · have := hused n (by omega) hn
      simp [hvalid] at this
  have hdo : ft.perform openOne = (({ ft with currentHandle := n } : FileTable).set n
      { ft.handles n with valid := true, name := ['f'], type := .text, mode := { read := true } }).fileHandleSetFile
        n (.opened []) := by
    simp only [perform, openOne, bfFileOpen]
    rw [if_neg (by simp [anyFile])]
    have hpath : fileResolvePath ['f'] = some "files-FIO/f".toList := by decide
    have hmode : fileModestrToMode "r-tn".toList = some (.text, { read := true }, ['r']) := rfl
    simp only [hpath, hmode, fileHandleNew, hnew]
    rw [if_pos (Int.natCast_nonneg n)]
    dsimp only
    rw [if_neg (by omega)]
    rfl
  rw [hdo]
  refine ⟨rfl, fun i => ?_, fun i hi => ?_⟩
  · obtain rfl | hne := eq_or_ne i n
    · simp [fileHandleSetFile, set]
    · simp only [fileHandleSetFile, set, Function.update_of_ne hne, hvalid]
      exact decide_eq_decide.mpr (by omega)
  · obtain rfl | hne := eq_or_ne i n
    · simp [fileHandleSetFile, set]
    · simp only [fileHandleSetFile, set, Function.update_of_ne hne]
      exact hfile i (by omega)

theorem openOnes_firstInUse (n : Nat) (hn : n ≤ fileIoMaxFiles) :
    FirstInUse n (after (List.replicate n openOne)) := by
  induction n with
  | zero => exact ⟨rfl, fun i => rfl, fun i hi => absurd hi (Nat.not_lt_zero i)⟩
  | succ n ih =>
      rw [List.replicate_succ', after, List.foldl_append]
      exact openOne_firstInUse (by omega) (ih (by omega))

def fullButFirst : List FileCall :=
  List.replicate fileIoMaxFiles openOne ++ [.fileClose anyFile (.int 0)]

/-- The next search ends at the last handle. -/
theorem fullButFirst_not_complete : ¬ (after fullButFirst).Complete := by
  rw [complete_iff (after_inRange _)]
  obtain ⟨hcurrent, hvalid, hfile⟩ := openOnes_firstInUse fileIoMaxFiles (le_refl _)
  set ft := after (List.replicate fileIoMaxFiles openOne) with hft
  have hclose : after fullButFirst = ft.fileHandleDestroy 0 := by
    rw [fullButFirst, after, List.foldl_append]
    obtain ⟨f, hf⟩ := Option.isSome_iff_exists.mp (hfile 0 (by decide))
    have hsafe : ft.fileHandleFileSafe (.int 0) = some (0, f) := by
      have hv : ft.fileHandleValid (.int 0) = true := by
        rw [fileHandleValid, if_neg (by decide)]
        exact hvalid 0
      simp only [fileHandleFileSafe, hv, Bool.not_true, Bool.false_eq_true, if_false, Int.toNat_zero, hf,
        Option.map_some]
    have hdo : ft.perform (.fileClose anyFile (.int 0)) = ft.fileHandleDestroy 0 := by
      simp only [perform, bfFileClose, hsafe]
      rw [if_neg (by simp [anyFile])]
    exact hdo
  rw [hclose]
  rintro (⟨i, hlow, hhigh, hfree⟩ | hall)
  · have hi : i ≠ 0 := by
      have hlow : ft.currentHandle ≤ i := hlow
      rw [hcurrent] at hlow
      have := max_eq
      omega
    simp only [fileHandleDestroy, set, Function.update_of_ne hi, hvalid] at hfree
    simp [hhigh] at hfree
  · have := hall 0 (by decide)
    simp [fileHandleDestroy, set] at this

end FileTable

end FileHandles
end LambdaMoo
