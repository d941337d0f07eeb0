import LambdaMoo.Editing
import LambdaMoo.LineFileSearch

/-! The functions of extensions.c that edit and search text files by lines, against what they are
asked for: when they neither break off nor read an argument that is not there, and are right. -/
namespace LambdaMoo
namespace LineFiles
open FilePaths

variable {h : FileHost} {args : List Var} {fn : LineFunction} {i : Nat} {file : TextFile}

/-! The arguments. -/

def strAt (args : List Var) (i : Nat) : Str :=
  match args[i - 1]? with
  | some (.str s) => s
  | _ => []

def numAt (args : List Var) (i : Nat) (default : Int) : Int :=
  match args[i - 1]? with
  | some (.int n) => n
  | _ => default

def listAt (args : List Var) (i : Nat) : List Var :=
  match args[i - 1]? with
  | some (.list l) => l
  | _ => []

def FileHost.readable (h : FileHost) (args : List Var) : Option TextFile :=
  match buildFileName h.fs (strAt args 1) (strAt args 2) 'r' with
  | .ok infileName => h.contents infileName
  | .error _ => none

def fullName (args : List Var) : Str :=
  fupSubdir ++ removeSpecialCharacters (strAt args 1) ++ '/' :: removeSpecialCharacters (strAt args 2)

def FileHost.linesOf (h : FileHost) (args : List Var) : List Str :=
  match h.contents (fullName args) with
  | some file => fileLines file.text
  | none => []

def Denied (h : FileHost) (args : List Var) : Prop :=
  buildFileName h.fs (strAt args 1) (strAt args 2) 'w' = .error .ePerm

def Unopened (h : FileHost) (args : List Var) : Prop :=
  ∃ name, fileNameBuffer (strAt args 1) (strAt args 2) = some name ∧ h.opens (h.outfileName name) = false

/-- The name of the file fits into the buffer. -/
def Fits (args : List Var) : Prop := fileNameBuffer (strAt args 1) (strAt args 2) = some (fullName args)

def Empty (args : List Var) : Prop :=
  strAt args 2 = [] ∨ strAt args 3 = [] ∨ strAt args 4 = [] ∨ strAt args args.length = []

def optionAt (args : List Var) : GrepOption := grepOption (if args.length = 4 then some (strAt args 4) else none)

def wanted (h : FileHost) (args : List Var) (text : Str) : List (Nat × Nat) :=
  sections (h.matches · (strAt args 3)) (h.matches · (strAt args 4))
    (h.extra (4 < args.length) (strAt args args.length)) 1 (textLines text)

/-! What the functions are to do. -/

namespace LineFunction

def Refused (h : FileHost) (args : List Var) : LineFunction → Prop
  | fileread | filegrep => h.readable args = none
  | fileextract => h.readable args = none ∨ Empty args
  | filewrite | fileinsert | filecut => Denied h args ∨ Unopened h args

/-- A file is left whose lines are those that were there, with new ones instead of some of them. -/
def Edits (h : FileHost) (args : List Var) (startLine endLine : Int) (new : List Str) (d : Done) : Prop :=
  ∃ text, d = ⟨.int 1, some (fullName args, text)⟩ ∧ fileLines text = editLines (h.linesOf args) startLine endLine new

def Right (h : FileHost) (args : List Var) (d : Done) : LineFunction → Prop
  | fileread => ∃ file, h.readable args = some file ∧
      d = ⟨.list ((requested file.text (numAt args 3 1) (numAt args 4 maxInt)).map .str), none⟩
  | filegrep => ∃ file, h.readable args = some file ∧
      let lines := found h (optionAt args) (strAt args 3) 1 (textLines file.text)
      d = ⟨.list [.list (foundStrings (optionAt args) lines), .list (foundNumbers (optionAt args) lines)], none⟩
  | fileextract => ∃ file, h.readable args = some file ∧
      d = ⟨.list [.list ((wanted h args file.text).map (.int ·.1)), .list ((wanted h args file.text).map (.int ·.2))],
        none⟩
  | filewrite => Edits h args (numAt args 4 1) (numAt args 5 (numAt args 4 1 + (listAt args 3).length - 1))
      (newLines h (listAt args 3)) d
  | fileinsert => Edits h args (numAt args 4 1) (numAt args 4 1 - 1) (newLines h (listAt args 3)) d
  | filecut => Edits h args (numAt args 3 1) (numAt args 4 (numAt args 3 1 - 1)) [] d

/-- The function does not break off, and is right. -/
def Exact (h : FileHost) (args : List Var) (fn : LineFunction) : Prop :=
  match fn.run h args with
  | .error _ => False
  | .ok (.error _) => fn.Refused h args
  | .ok (.ok d) => fn.Right h args d

/-- When it is. -/
def HoldsWhen (h : FileHost) (args : List Var) : LineFunction → Prop
  | fileread => ∀ file, h.readable args = some file → ReadsWell file.text (numAt args 3 1) (numAt args 4 maxInt)
  | filegrep => ∀ file, h.readable args = some file → GrepsWell h (optionAt args) (strAt args 3) file.text
  | fileextract => Empty args ∨ ∀ file, h.readable args = some file → Unterminated file.text ∧
      (∀ line ∈ fileLines file.text, Short line) ∧ (fileLines file.text).length ≤ intMax
  | filewrite => Denied h args
  | fileinsert => Denied h args ∨ Unopened h args ∨ Fits args ∧ ∀ file, h.contents (fullName args) = some file →
      EditsWell file.text (numAt args 4 1) none (numAt args 4 1 - 1) (newLines h (listAt args 3))
  | filecut => Denied h args ∨ 2 < args.length ∧ (Unopened h args ∨ Fits args ∧
      ∀ file, h.contents (fullName args) = some file → EditsWell file.text (numAt args 3 1)
        (some (numAt args 4 (wrap32 (numAt args 3 1 - 1)))) (numAt args 4 (numAt args 3 1 - 1)) [])

end LineFunction

/-- The lines of the file that is worked on fit into the buffer, and can be counted. -/
def FileHost.Plain (h : FileHost) (args : List Var) : Prop :=
  ∀ file, h.readable args = some file ∨ h.contents (fullName args) = some file → LineFiles.Plain file.text

/-! What the registration lets through is read as what it is. -/

theorem isStr_iff (v : Var) : isStr v = true ↔ ∃ s, v = .str s := by
  cases v <;> simp [isStr]

theorem LineFunction.Admits.arg {proto : Var → Bool} (ha : fn.Admits args) (hpos : 0 < i) (hlen : i ≤ args.length)
    (hproto : fn.prototype[i - 1]? = some proto) :
    ∃ v, args[i - 1]? = some v ∧ element args i = .ok v ∧ proto v = true := by
  obtain ⟨-, -, htypes⟩ := checkArgs_none ha.check
  have hv : args[i - 1]? = some args[i - 1] := List.getElem?_eq_getElem (by omega)
  have hindex : ((i : Int) - 1).toNat = i - 1 := by omega
  refine ⟨args[i - 1], hv, ?_, htypes (args[i - 1], proto) (List.mem_iff_getElem?.mpr ⟨i - 1, ?_⟩)⟩
  · rw [element, if_pos (by omega), hindex, hv]
  · rw [List.getElem?_zip_eq_some]
    exact ⟨hv, hproto⟩

theorem argStr_eq (ha : fn.Admits args) (hpos : 0 < i) (hlen : i ≤ args.length)
    (hproto : fn.prototype[i - 1]? = some isStr) : argStr args i = .ok (strAt args i) := by
  obtain ⟨v, hv, helement, hs⟩ := ha.arg hpos hlen hproto
  obtain ⟨s, rfl⟩ := (isStr_iff v).mp hs
  rw [argStr, helement, strAt, hv]
  rfl

theorem argNum_eq (ha : fn.Admits args) (hpos : 0 < i) (hlen : i ≤ args.length)
    (hproto : fn.prototype[i - 1]? = some Var.isInt) (default : Int) :
    argNum args i = .ok (numAt args i default) := by
  obtain ⟨v, hv, helement, hn⟩ := ha.arg hpos hlen hproto
  obtain ⟨n, rfl⟩ := (isInt_iff v).mp hn
  rw [argNum, helement, numAt, hv]
  rfl

theorem argList_eq (ha : fn.Admits args) (hpos : 0 < i) (hlen : i ≤ args.length)
    (hproto : fn.prototype[i - 1]? = some Var.isList) : argList args i = .ok (listAt args i) := by
  obtain ⟨v, hv, helement, hl⟩ := ha.arg hpos hlen hproto
  obtain ⟨l, rfl⟩ := (isList_iff v).mp hl
  rw [argList, helement, listAt, hv]
  rfl

theorem argNum_outside (hlen : args.length < i) : argNum args i = .error .outside := by
  have hindex : ((i : Int) - 1).toNat = i - 1 := by omega
  rw [argNum, element, if_pos (by omega), hindex, List.getElem?_eq_none (by omega)]
  rfl

theorem numAt_outside (hlen : args.length < i) (default : Int) : numAt args i default = default := by
  rw [numAt, List.getElem?_eq_none (by omega)]

theorem numberOr_eq (ha : fn.Admits args) (hpos : 0 < i) (hproto : fn.prototype[i - 1]? = some Var.isInt)
    (default : Int) : numberOr args i (.ok default) = .ok (numAt args i default) := by
  unfold numberOr
  split
  · next hlen => exact argNum_eq ha hpos hlen hproto default
  · next hlen => rw [numAt_outside (by omega)]

theorem numAt_le (ha : fn.Admits args) {default : Int} (hd : default ≤ intMax) : numAt args i default ≤ intMax := by
  unfold numAt
  split
  · next n hn =>
      have hs := ha.storable _ (List.mem_of_getElem? hn)
      simp only [Var.storable, Bool.and_eq_true, decide_eq_true_eq] at hs
      exact hs.2
  · exact hd

theorem LineFunction.Admits.minargs_le (ha : fn.Admits args) : fn.minargs ≤ args.length :=
  (checkArgs_none ha.check).1

theorem LineFunction.Admits.length_le (ha : fn.Admits args) : args.length ≤ fn.prototype.length :=
  (checkArgs_none ha.check).2.1

/-! The functions that read. -/

theorem readable_eq_some (hr : h.readable args = some file) : ∃ name,
    buildFileName h.fs (strAt args 1) (strAt args 2) 'r' = .ok name ∧ h.contents name = some file := by
  unfold FileHost.readable at hr
  split at hr
  · next name hname => exact ⟨name, hname, hr⟩
  · cases hr

theorem readable_eq_none (hr : h.readable args = none) :
    (∃ e, buildFileName h.fs (strAt args 1) (strAt args 2) 'r' = .error e) ∨
      ∃ name, buildFileName h.fs (strAt args 1) (strAt args 2) 'r' = .ok name ∧ h.contents name = none := by
  unfold FileHost.readable at hr
  split at hr
  · next name hname => exact .inr ⟨name, hname, hr⟩
  · next e hname => exact .inl ⟨e, hname⟩

theorem reads_exact_iff {α : Type} {reads : TextFile → Except Crash α} {pack : α → Done} {good : TextFile → α → Prop}
    (hrefused : h.readable args = none → fn.Refused h args ∧ ∃ e, fn.run h args = .ok (.error e))
    (hreads : ∀ file, h.readable args = some file → fn.run h args = (reads file).map fun x => .ok (pack x))
    (hright : ∀ file x, h.readable args = some file → (fn.Right h args (pack x) ↔ good file x)) :
    fn.Exact h args ↔ ∀ file, h.readable args = some file → ∃ x, reads file = .ok x ∧ good file x := by
  unfold LineFunction.Exact
  cases hr : h.readable args with
  | none =>
      obtain ⟨hrefuses, e, heq⟩ := hrefused hr
      rw [heq]
      exact iff_of_true hrefuses fun file hfile => by cases hfile
  | some file =>
      rw [hreads file hr]
      cases hread : reads file with
      | error c =>
          refine iff_of_false id fun hall => ?_
          obtain ⟨x, heq, -⟩ := hall file rfl
          rw [hread] at heq
          cases heq
      | ok x =>
          refine (hright file x hr).trans ⟨fun hgood file' hfile' => ?_, fun hall => ?_⟩
          · cases hfile'
            exact ⟨x, hread, hgood⟩
          · obtain ⟨x', heq, hgood⟩ := hall file rfl
            rw [hread] at heq
            cases heq
            exact hgood

theorem exists_file_iff {p : TextFile → Prop} (hr : h.readable args = some file) :
    (∃ file, h.readable args = some file ∧ p file) ↔ p file := by
  rw [hr]
  simp

theorem fileread_refused (ha : LineFunction.fileread.Admits args) (hr : h.readable args = none) :
    ∃ e, bfFileread h args = .ok (.error e) := by
  have hmin : 2 ≤ args.length := ha.minargs_le
  unfold bfFileread
  rw [argStr_eq ha Nat.one_pos (by omega) rfl, Except.bind_of_ok, argStr_eq ha Nat.two_pos (by omega) rfl, Except.bind_of_ok]
  obtain ⟨e, hname⟩ | ⟨name, hname, hnone⟩ := readable_eq_none hr
  · rw [hname]
    exact ⟨e, rfl⟩
  · rw [hname]
    dsimp only
    rw [numberOr_eq ha (by omega) rfl, Except.bind_of_ok, numberOr_eq ha (by omega) rfl, Except.bind_of_ok, hnone]
    exact ⟨_, rfl⟩

theorem fileread_reads (ha : LineFunction.fileread.Admits args) (hr : h.readable args = some file) :
    bfFileread h args =
      (readLines file.text (numAt args 3 1) (numAt args 4 maxInt)).map fun ret => .ok ⟨.list ret, none⟩ := by
  have hmin : 2 ≤ args.length := ha.minargs_le
  unfold bfFileread
  rw [argStr_eq ha Nat.one_pos (by omega) rfl, Except.bind_of_ok, argStr_eq ha Nat.two_pos (by omega) rfl, Except.bind_of_ok]
  obtain ⟨name, hname, hfile⟩ := readable_eq_some hr
  rw [hname]
  dsimp only
  rw [numberOr_eq ha (by omega) rfl, Except.bind_of_ok, numberOr_eq ha (by omega) rfl, Except.bind_of_ok, hfile]
  dsimp only
  cases readLines file.text (numAt args 3 1) (numAt args 4 maxInt) <;> rfl

theorem fileread_exact_iff (ha : LineFunction.fileread.Admits args) :
    LineFunction.fileread.Exact h args ↔ ∀ file, h.readable args = some file → ∃ ret,
      readLines file.text (numAt args 3 1) (numAt args 4 maxInt) = .ok ret ∧
        ret = (requested file.text (numAt args 3 1) (numAt args 4 maxInt)).map .str := by
  refine reads_exact_iff (fun hr => ⟨hr, fileread_refused ha hr⟩) (fun file hr => fileread_reads ha hr)
    fun file ret hr => (exists_file_iff hr).trans ?_
  rw [Done.mk.injEq, Var.list.injEq, and_iff_left rfl]

theorem optionAt_eq (ha : LineFunction.filegrep.Admits args) :
    argOption args = .ok (if args.length = 4 then some (strAt args 4) else none) := by
  unfold argOption
  split
  · rw [argStr_eq ha (by omega) (by omega) rfl]
    rfl
  · rfl

theorem filegrep_refused (ha : LineFunction.filegrep.Admits args) (hr : h.readable args = none) :
    ∃ e, bfFilegrep h args = .ok (.error e) := by
  have hmin : 3 ≤ args.length := ha.minargs_le
  unfold bfFilegrep
  rw [argStr_eq ha Nat.one_pos (by omega) rfl, Except.bind_of_ok, argStr_eq ha Nat.two_pos (by omega) rfl,
    Except.bind_of_ok]
  obtain ⟨e, hname⟩ | ⟨name, hname, hnone⟩ := readable_eq_none hr
  · rw [hname]
    exact ⟨e, rfl⟩
  · rw [hname]
    dsimp only
    rw [optionAt_eq ha, Except.bind_of_ok, hnone]
    exact ⟨_, rfl⟩

theorem filegrep_reads (ha : LineFunction.filegrep.Admits args) (hr : h.readable args = some file) :
    bfFilegrep h args = (eachLine (fun _ => true) (grepStep h (optionAt args) (strAt args 3)) 1 (.opened file.text)
      ([], [])).map fun r => .ok ⟨.list [.list r.2.2.1, .list r.2.2.2], none⟩ := by
  have hmin : 3 ≤ args.length := ha.minargs_le
  obtain ⟨name, hname, hfile⟩ := readable_eq_some hr
  unfold bfFilegrep
  rw [argStr_eq ha Nat.one_pos (by omega) rfl, Except.bind_of_ok, argStr_eq ha Nat.two_pos (by omega) rfl,
    Except.bind_of_ok, hname]
  dsimp only
  rw [optionAt_eq ha, Except.bind_of_ok, hfile]
  dsimp only
  rw [argStr_eq ha (by omega) hmin rfl, Except.bind_of_ok]
  change (eachLine (fun _ => true) (grepStep h (optionAt args) (strAt args 3)) 1 (.opened file.text)
    ([], []) >>= _) = _
  cases eachLine (fun _ => true) (grepStep h (optionAt args) (strAt args 3)) 1 (.opened file.text) ([], []) <;> rfl

theorem filegrep_exact_iff (ha : LineFunction.filegrep.Admits args) :
    LineFunction.filegrep.Exact h args ↔ ∀ file, h.readable args = some file → ∃ r,
      eachLine (fun _ => true) (grepStep h (optionAt args) (strAt args 3)) 1 (.opened file.text) ([], []) = .ok r ∧
        r.2.2 = (foundStrings (optionAt args) (found h (optionAt args) (strAt args 3) 1 (textLines file.text)),
          foundNumbers (optionAt args) (found h (optionAt args) (strAt args 3) 1 (textLines file.text))) := by
  refine reads_exact_iff (fun hr => ⟨hr, filegrep_refused ha hr⟩) (fun file hr => filegrep_reads ha hr)
    fun file r hr => (exists_file_iff hr).trans ?_
  obtain ⟨i, f, slist, nlist⟩ := r
  simp

theorem argLast_eq (ha : LineFunction.fileextract.Admits args) : argStr args args.length = .ok (strAt args args.length) := by
  have hmin : 4 ≤ args.length := ha.minargs_le
  have hmax : args.length ≤ 5 := ha.length_le
  obtain hlen | hlen : args.length = 4 ∨ args.length = 5 := by omega
  · exact argStr_eq ha (by omega) le_rfl (by rw [hlen]; rfl)
  · exact argStr_eq ha (by omega) le_rfl (by rw [hlen]; rfl)

theorem fileextract_refused (ha : LineFunction.fileextract.Admits args) (hr : h.readable args = none ∨ Empty args) :
    ∃ e, bfFileextract h args = .ok (.error e) := by
  have hmin : 4 ≤ args.length := ha.minargs_le
  unfold bfFileextract
  rw [argStr_eq ha Nat.one_pos (by omega) rfl, Except.bind_of_ok, argStr_eq ha Nat.two_pos (by omega) rfl,
    Except.bind_of_ok]
  cases hname : buildFileName h.fs (strAt args 1) (strAt args 2) 'r' with
  | error e => exact ⟨e, rfl⟩
  | ok name =>
      dsimp only
      rw [argStr_eq ha (by omega) (by omega) rfl, Except.bind_of_ok, argStr_eq ha (by omega) hmin rfl,
        Except.bind_of_ok, argLast_eq ha, Except.bind_of_ok]
      split
      · exact ⟨_, rfl⟩
      · next hempty =>
          have hnone : h.contents name = none := by
            have hr := hr.resolve_right hempty
            rwa [FileHost.readable, hname] at hr
          rw [hnone]
          exact ⟨_, rfl⟩

theorem fileextract_reads (ha : LineFunction.fileextract.Admits args) (hempty : ¬ Empty args)
    (hr : h.readable args = some file) : bfFileextract h args = (eachLine (fun _ => true)
      (extractStep h (4 < args.length) (strAt args 3) (strAt args 4) (strAt args args.length)) 1
      (.opened file.text) ⟨1, 0, [], []⟩).map fun r =>
        .ok ⟨.list [.list r.2.2.startList, .list r.2.2.endList], none⟩ := by
  have hmin : 4 ≤ args.length := ha.minargs_le
  obtain ⟨name, hname, hfile⟩ := readable_eq_some hr
  unfold bfFileextract
  rw [argStr_eq ha Nat.one_pos (by omega) rfl, Except.bind_of_ok, argStr_eq ha Nat.two_pos (by omega) rfl,
    Except.bind_of_ok, hname]
  dsimp only
  rw [argStr_eq ha (by omega) (by omega) rfl, Except.bind_of_ok, argStr_eq ha (by omega) hmin rfl,
    Except.bind_of_ok, argLast_eq ha, Except.bind_of_ok]
  unfold Empty at hempty
  rw [if_neg hempty, hfile]
  dsimp only
  cases eachLine (fun _ => true)
    (extractStep h (4 < args.length) (strAt args 3) (strAt args 4) (strAt args args.length)) 1
    (.opened file.text) ⟨1, 0, [], []⟩ <;> rfl

theorem fileextract_exact_iff (ha : LineFunction.fileextract.Admits args) :
    LineFunction.fileextract.Exact h args ↔ Empty args ∨ ∀ file, h.readable args = some file → ∃ r,
      eachLine (fun _ => true)
        (extractStep h (4 < args.length) (strAt args 3) (strAt args 4) (strAt args args.length)) 1
        (.opened file.text) ⟨1, 0, [], []⟩ = .ok r ∧
      (r.2.2.startList = (wanted h args file.text).map (.int ·.1) ∧
        r.2.2.endList = (wanted h args file.text).map (.int ·.2)) := by
  by_cases hempty : Empty args
  · obtain ⟨e, heq⟩ := fileextract_refused (h := h) ha (.inr hempty)
    refine iff_of_true ?_ (.inl hempty)
    unfold LineFunction.Exact LineFunction.run
    dsimp only
    rw [heq]
    exact .inr hempty
  rw [or_iff_right hempty]
  refine reads_exact_iff (fun hr => ⟨.inl hr, fileextract_refused ha (.inl hr)⟩)
    (fun file hr => fileextract_reads ha hempty hr) fun file r hr => (exists_file_iff hr).trans ?_
  simp

/-! The functions that edit. -/

theorem fileNameBuffer_of_ok {dir nameStr name : Str} (hname : buildFileName h.fs dir nameStr 'w' = .ok name) :
    fileNameBuffer dir nameStr = some name := by
  unfold buildFileName at hname
  unfold fileNameBuffer
  split at hname
  · cases hname
  next hlen =>
  rw [if_neg hlen]
  dsimp only at hname
  split at hname
  · cases hname
  split at hname
  · cases hname
  next hfits =>
  have hpath := tryPath_ok hname
  rw [hpath, List.take_of_length_le (by omega)]

theorem editName_eq (hd : ¬ Denied h args) : editName h (strAt args 1) (strAt args 2) =
    match fileNameBuffer (strAt args 1) (strAt args 2) with
    | some name => .ok (.ok name)
    | none => .error .unset := by
  unfold editName
  cases hname : buildFileName h.fs (strAt args 1) (strAt args 2) 'w' with
  | ok name => rw [fileNameBuffer_of_ok hname]
  | error e => cases e <;> first | exact absurd hname hd | rfl

theorem editName_denied (hd : Denied h args) : editName h (strAt args 1) (strAt args 2) = .ok (.error .ePerm) := by
  unfold editName
  rw [hd]

def edited (h : FileHost) (args : List Var) (startLine : Int) (bound : Option Int) (new : List Str) :
    Except Crash (Except Error Done) :=
  match fileNameBuffer (strAt args 1) (strAt args 2) with
  | some name => editFile h name startLine bound (Stdio.unlines '\n' new)
  | none => .error .unset

theorem edited_exact_iff {startLine endLine : Int} {bound : Option Int} {new : List Str}
    (hnew : ∀ line ∈ new, '\n' ∉ line) (hrun : fn.run h args = edited h args startLine bound new)
    (hrefused : fn.Refused h args ↔ Denied h args ∨ Unopened h args)
    (hright : ∀ d, fn.Right h args d ↔ LineFunction.Edits h args startLine endLine new d) :
    fn.Exact h args ↔ Unopened h args ∨ Fits args ∧ ∀ file, h.contents (fullName args) = some file →
      ∃ text, editText file.text startLine bound (Stdio.unlines '\n' new) = .ok text ∧
        fileLines text = editLines (fileLines file.text) startLine endLine new := by
  unfold LineFunction.Exact
  rw [hrun, edited]
  cases hbuffer : fileNameBuffer (strAt args 1) (strAt args 2) with
  | none =>
      refine iff_of_false id ?_
      rintro (⟨name, hname, -⟩ | ⟨hfits, -⟩)
      · rw [hbuffer] at hname
        cases hname
      · rw [Fits, hbuffer] at hfits
        cases hfits
  | some name =>
      dsimp only
      unfold editFile
      cases hopens : h.opens (h.outfileName name) with
      | false =>
          have hunopened : Unopened h args := ⟨name, hbuffer, hopens⟩
          exact iff_of_true (hrefused.mpr (.inr hunopened)) (.inl hunopened)
      | true =>
          have hopened : ¬ Unopened h args := by
            rintro ⟨name', hname', hopens'⟩
            rw [hbuffer] at hname'
            cases hname'
            rw [hopens] at hopens'
            cases hopens'
          have hfits : Fits args ↔ name = fullName args := by
            rw [Fits, hbuffer, Option.some.injEq]
          rw [or_iff_right hopened, hfits]
          simp only [Bool.not_true, Bool.false_eq_true, if_false]
          cases hfile : h.contents name with
          | none =>
              refine (hright _).trans ⟨?_, ?_⟩
              · rintro ⟨text, heq, -⟩
                simp only [Done.mk.injEq, Option.some.injEq, Prod.mk.injEq, true_and] at heq
                refine ⟨heq.1, fun file hfull => ?_⟩
                rw [← heq.1, hfile] at hfull
                cases hfull
              · rintro ⟨hname, -⟩
                refine ⟨_, by rw [hname], ?_⟩
                rw [fileLines_unlines hnew, FileHost.linesOf, ← hname, hfile]
                simp [editLines]
          | some file =>
              have hlines : name = fullName args → h.linesOf args = fileLines file.text := by
                intro hname
                rw [FileHost.linesOf, ← hname, hfile]
              dsimp only
              cases hedit : editText file.text startLine bound (Stdio.unlines '\n' new) with
              | error c =>
                  refine iff_of_false id ?_
                  rintro ⟨hname, hall⟩
                  obtain ⟨text, heq, -⟩ := hall file (hname ▸ hfile)
                  rw [hedit] at heq
                  cases heq
              | ok text =>
                  refine (hright _).trans ⟨?_, ?_⟩
                  · rintro ⟨text', heq, htext⟩
                    simp only [Done.mk.injEq, Option.some.injEq, Prod.mk.injEq, true_and] at heq
                    obtain ⟨hname, rfl⟩ := heq
                    refine ⟨hname, fun file' hfull => ⟨text, ?_, ?_⟩⟩ <;> rw [← hname, hfile] at hfull <;> cases hfull
                    · exact hedit
                    · rw [htext, hlines hname]
                  · rintro ⟨hname, hall⟩
                    obtain ⟨text', heq, htext⟩ := hall file (hname ▸ hfile)
                    rw [hedit] at heq
                    cases heq
                    exact ⟨text, by rw [hname], by rw [htext, hlines hname]⟩

theorem fileinsert_edits (ha : LineFunction.fileinsert.Admits args) (hd : ¬ Denied h args) :
    bfFileinsert h args = edited h args (numAt args 4 1) none (newLines h (listAt args 3)) := by
  have hmin : 3 ≤ args.length := ha.minargs_le
  unfold bfFileinsert edited
  rw [argStr_eq ha Nat.one_pos (by omega) rfl, Except.bind_of_ok, argStr_eq ha Nat.two_pos (by omega) rfl,
    Except.bind_of_ok, editName_eq hd]
  cases fileNameBuffer (strAt args 1) (strAt args 2) with
  | none => rfl
  | some name =>
      dsimp only
      rw [Except.bind_of_ok]
      dsimp only
      rw [numberOr_eq ha (by omega) rfl, Except.bind_of_ok, argList_eq ha (by omega) hmin rfl,
        Except.bind_of_ok, (printedList_spec h _).1]

theorem filecut_edits (ha : LineFunction.filecut.Admits args) (hd : ¬ Denied h args) (hlen : 2 < args.length) :
    bfFilecut h args =
      edited h args (numAt args 3 1) (some (numAt args 4 (wrap32 (numAt args 3 1 - 1)))) [] := by
  have hdefault : (do return wrap32 ((← argNum args 3) - 1)) = Except.ok (wrap32 (numAt args 3 1 - 1)) := by
    rw [argNum_eq ha (by omega) (by omega) rfl 1]
    rfl
  unfold bfFilecut edited
  rw [argStr_eq ha Nat.one_pos (by omega) rfl, Except.bind_of_ok, argStr_eq ha Nat.two_pos (by omega) rfl,
    Except.bind_of_ok, editName_eq hd]
  cases fileNameBuffer (strAt args 1) (strAt args 2) with
  | none => rfl
  | some name =>
      dsimp only
      rw [Except.bind_of_ok]
      dsimp only
      rw [numberOr_eq ha (by omega) rfl, Except.bind_of_ok, hdefault,
        numberOr_eq ha (by omega) rfl, Except.bind_of_ok]
      rfl

theorem filecut_outside (ha : LineFunction.filecut.Admits args) (hd : ¬ Denied h args) (hlen : args.length ≤ 2) :
    ∃ c, bfFilecut h args = .error c := by
  have hmin : 2 ≤ args.length := ha.minargs_le
  unfold bfFilecut
  rw [argStr_eq ha Nat.one_pos (by omega) rfl, Except.bind_of_ok, argStr_eq ha Nat.two_pos hmin rfl,
    Except.bind_of_ok, editName_eq hd]
  cases fileNameBuffer (strAt args 1) (strAt args 2) with
  | none => exact ⟨_, rfl⟩
  | some name =>
      dsimp only
      rw [Except.bind_of_ok]
      dsimp only
      rw [numberOr_eq ha (by omega) rfl, Except.bind_of_ok, numberOr, if_neg (by omega),
        argNum_outside (by omega)]
      exact ⟨_, rfl⟩

theorem filewrite_outside (ha : LineFunction.filewrite.Admits args) (hd : ¬ Denied h args) :
    ∃ c, bfFilewrite h args = .error c := by
  have hmin : 3 ≤ args.length := ha.minargs_le
  have hmax : args.length ≤ 3 := ha.length_le
  unfold bfFilewrite
  rw [argStr_eq ha Nat.one_pos (by omega) rfl, Except.bind_of_ok, argStr_eq ha Nat.two_pos (by omega) rfl,
    Except.bind_of_ok, editName_eq hd]
  cases fileNameBuffer (strAt args 1) (strAt args 2) with
  | none => exact ⟨_, rfl⟩
  | some name =>
      dsimp only
      rw [Except.bind_of_ok]
      dsimp only
      rw [numberOr, if_neg (by omega), Except.bind_of_ok, argList_eq ha (by omega) hmin rfl,
        Except.bind_of_ok, numberOr, if_neg (by omega), argNum_outside (by omega)]
      exact ⟨_, rfl⟩

theorem fileinsert_exact_iff (ha : LineFunction.fileinsert.Admits args) :
    LineFunction.fileinsert.Exact h args ↔ Denied h args ∨ Unopened h args ∨ Fits args ∧
      ∀ file, h.contents (fullName args) = some file → ∃ text,
        editText file.text (numAt args 4 1) none (Stdio.unlines '\n' (newLines h (listAt args 3))) = .ok text ∧
        fileLines text = editLines (fileLines file.text) (numAt args 4 1) (numAt args 4 1 - 1)
          (newLines h (listAt args 3)) := by
  by_cases hd : Denied h args
  · have hmin : 3 ≤ args.length := ha.minargs_le
    refine iff_of_true ?_ (.inl hd)
    unfold LineFunction.Exact LineFunction.run bfFileinsert
    dsimp only
    rw [argStr_eq ha Nat.one_pos (by omega) rfl, Except.bind_of_ok, argStr_eq ha Nat.two_pos (by omega) rfl,
      Except.bind_of_ok, editName_denied hd]
    exact .inl hd
  · rw [or_iff_right hd]
    exact @edited_exact_iff h args .fileinsert _ _ _ _ (printedList_spec h _).2 (fileinsert_edits ha hd) Iff.rfl
      fun _ => Iff.rfl

theorem filecut_exact_iff (ha : LineFunction.filecut.Admits args) :
    LineFunction.filecut.Exact h args ↔ Denied h args ∨ 2 < args.length ∧ (Unopened h args ∨ Fits args ∧
      ∀ file, h.contents (fullName args) = some file → ∃ text,
        editText file.text (numAt args 3 1) (some (numAt args 4 (wrap32 (numAt args 3 1 - 1)))) [] = .ok text ∧
        fileLines text =
          editLines (fileLines file.text) (numAt args 3 1) (numAt args 4 (numAt args 3 1 - 1)) []) := by
  have hmin : 2 ≤ args.length := ha.minargs_le
  by_cases hd : Denied h args
  · refine iff_of_true ?_ (.inl hd)
    unfold LineFunction.Exact LineFunction.run bfFilecut
    dsimp only
    rw [argStr_eq ha Nat.one_pos (by omega) rfl, Except.bind_of_ok, argStr_eq ha Nat.two_pos hmin rfl,
      Except.bind_of_ok, editName_denied hd]
    exact .inl hd
  · rw [or_iff_right hd]
    by_cases hlen : 2 < args.length
    · rw [and_iff_right hlen]
      exact @edited_exact_iff h args .filecut _ _ _ [] (by simp) (filecut_edits ha hd hlen) Iff.rfl fun _ => Iff.rfl
    · refine iff_of_false ?_ fun hlen' => hlen hlen'.1
      obtain ⟨c, heq⟩ := filecut_outside ha hd (by omega)
      unfold LineFunction.Exact LineFunction.run
      dsimp only
      rw [heq]
      exact id

theorem filewrite_exact_iff (ha : LineFunction.filewrite.Admits args) :
    LineFunction.filewrite.Exact h args ↔ Denied h args := by
  have hmin : 3 ≤ args.length := ha.minargs_le
  by_cases hd : Denied h args
  · refine iff_of_true ?_ hd
    unfold LineFunction.Exact LineFunction.run bfFilewrite
    dsimp only
    rw [argStr_eq ha Nat.one_pos (by omega) rfl, Except.bind_of_ok, argStr_eq ha Nat.two_pos (by omega) rfl,
      Except.bind_of_ok, editName_denied hd]
    exact .inl hd
  · refine iff_of_false ?_ hd
    obtain ⟨c, heq⟩ := filewrite_outside ha hd
    unfold LineFunction.Exact LineFunction.run
    dsimp only
    rw [heq]
    exact id

/-! All six. -/

theorem edits_of_well {startLine endLine : Int} {bound : Option Int} {new : List Str}
    (hnew : ∀ line ∈ new, '\n' ∉ line) (hstart : startLine ≤ intMax) (hbound : bound.getD 0 ≤ intMax)
    (hw : ∀ file, h.contents (fullName args) = some file → EditsWell file.text startLine bound endLine new) :
    ∀ file, h.contents (fullName args) = some file → ∃ text,
      editText file.text startLine bound (Stdio.unlines '\n' new) = .ok text ∧
        fileLines text = editLines (fileLines file.text) startLine endLine new :=
  fun file hfile => editText_right hnew hstart hbound (hw file hfile)

theorem well_of_edits {startLine endLine : Int} {bound : Option Int} {new : List Str} (hp : h.Plain args)
    (hnew : ∀ line ∈ new, '\n' ∉ line) (hstart : startLine ≤ intMax) (hbound : bound.getD 0 ≤ intMax)
    (hend : endLine ≤ max (startLine - 1) (bound.getD 0))
    (hedits : ∀ file, h.contents (fullName args) = some file → ∃ text,
      editText file.text startLine bound (Stdio.unlines '\n' new) = .ok text ∧
        fileLines text = editLines (fileLines file.text) startLine endLine new) :
    ∀ file, h.contents (fullName args) = some file → EditsWell file.text startLine bound endLine new := by
  intro file hfile
  obtain ⟨text, hedit, hlines⟩ := hedits file hfile
  exact editsWell_of_right (hp file (.inr hfile)) hstart hbound hend hnew hedit hlines

/-- What `filecut` leaves out ends where it is to, but for a number that is not there. -/
theorem filecut_end (ha : LineFunction.filecut.Admits args) : numAt args 4 (numAt args 3 1 - 1) ≤
    max (numAt args 3 1 - 1) (numAt args 4 (wrap32 (numAt args 3 1 - 1))) := by
  by_cases hlen : args.length < 4
  · rw [numAt_outside hlen]
    exact Int.le_max_left _ _
  · have hsame : ∀ default, numAt args 4 default = numAt args 4 0 := by
      obtain ⟨v, hv, -, hn⟩ := ha.arg (i := 4) (by omega) (by omega) rfl
      obtain ⟨n, rfl⟩ := (isInt_iff v).mp hn
      intro default
      rw [numAt, numAt, hv]
    rw [hsame, hsame (wrap32 _)]
    exact Int.le_max_right _ _

/-- The functions that edit and search by lines are right when the text allows it, and where lines
fit into the buffer only then. -/
theorem lineFunctions_exact (ha : fn.Admits args) :
    (fn.HoldsWhen h args → fn.Exact h args) ∧ (h.Plain args → fn.Exact h args → fn.HoldsWhen h args) := by
  cases fn with
  | fileread =>
      rw [fileread_exact_iff ha]
      refine ⟨fun hw file hr => ⟨_, readLines_right (numAt_le ha (by decide)) (hw file hr), rfl⟩,
        fun hp hall file hr => ?_⟩
      obtain ⟨_, heq, rfl⟩ := hall file hr
      exact readsWell_of_right (hp file (.inl hr)) (numAt_le ha (by decide)) (numAt_le ha (by decide)) heq
  | filegrep =>
      rw [filegrep_exact_iff ha]
      refine ⟨fun hw file hr => ?_, fun hp hall file hr => ?_⟩
      · obtain ⟨i, f, heq⟩ := grep_right (hw file hr)
        exact ⟨_, heq, rfl⟩
      · obtain ⟨⟨i, f, lists⟩, heq, rfl⟩ := hall file hr
        exact grepsWell_of_right (hp file (.inl hr)) (grepOption_some _) heq
  | fileextract =>
      rw [fileextract_exact_iff ha]
      refine ⟨Or.imp_right fun hw file hr => ?_, fun hp => Or.imp_right fun hall file hr => ?_⟩
      · obtain ⟨hunterminated, hshort, hcount⟩ := hw file hr
        obtain ⟨i, f, x, heq, hstart, hend⟩ := extract_right hunterminated hshort hcount h (4 < args.length)
          (strAt args 3) (strAt args 4) (strAt args args.length)
        exact ⟨_, heq, hstart, hend⟩
      · have hplain := hp file (.inl hr)
        obtain ⟨r, heq, -⟩ := hall file hr
        refine ⟨?_, hplain.short, Int.le_of_lt hplain.count⟩
        by_contra hterminated
        rw [extract_past hplain hterminated] at heq
        cases heq
  | filewrite =>
      rw [filewrite_exact_iff ha]
      exact ⟨id, fun _ => id⟩
  | fileinsert =>
      rw [fileinsert_exact_iff ha]
      have hnew := (printedList_spec h (listAt args 3)).2
      have hstart : numAt args 4 1 ≤ intMax := numAt_le ha (by decide)
      refine ⟨Or.imp_right (Or.imp_right (And.imp_right fun hw => ?_)), fun hp =>
        Or.imp_right (Or.imp_right (And.imp_right fun hedits => ?_))⟩
      · exact edits_of_well hnew hstart (by decide) hw
      · exact well_of_edits hp hnew hstart (by decide) (Int.le_max_left _ _) hedits
  | filecut =>
      rw [filecut_exact_iff ha]
      have hstart : numAt args 3 1 ≤ intMax := numAt_le ha (by decide)
      have hbound : (some (numAt args 4 (wrap32 (numAt args 3 1 - 1)))).getD 0 ≤ intMax := numAt_le ha (wrap32_le _)
      refine ⟨Or.imp_right (And.imp_right (Or.imp_right (And.imp_right fun hw => ?_))), fun hp =>
        Or.imp_right (And.imp_right (Or.imp_right (And.imp_right fun hedits => ?_)))⟩
      · exact edits_of_well (by simp) hstart hbound hw
      · exact well_of_edits hp (by simp) hstart hbound (filecut_end ha) hedits

def oneLine : FileHost where
  fs := ⟨fun _ => some false, fun _ => true, fun _ => true, fun _ => true⟩
  contents _ := some ⟨"a\n".toList, by decide⟩
  opens _ := true
  time := "0".toList
  printFloat _ := []
  doMatch _ _ := .int 0

theorem lineFunctions_exact_oneLine :
    LineFunction.fileread.Exact oneLine [.str [], .str "f".toList, .int 1, .int 1] := by
  refine (lineFunctions_exact ⟨rfl, by decide⟩).1 fun file hr => .inr ?_
  cases hr
  refine ⟨by decide, by decide, ?_⟩
  unfold Short
  decide

/-- Without bounds, all of a file whose last line ends with a newline is not read: the server stops. -/
theorem fileread_panics : LineFunction.fileread.Admits [.str [], .str "f".toList] ∧
    LineFunction.fileread.run oneLine [.str [], .str "f".toList] = .error .panic ∧
    ¬ LineFunction.fileread.Exact oneLine [.str [], .str "f".toList] := by
  have ha : LineFunction.fileread.Admits [.str [], .str "f".toList] := ⟨rfl, by decide⟩
  have hlines : Lines ["a".toList] := by
    unfold Lines Short
    decide
  have hrun : LineFunction.fileread.run oneLine [.str [], .str "f".toList] = .error .panic := by
    have hread : readLines "a\n".toList 1 maxInt = .error .panic :=
      readLines_past hlines (by decide) (by decide) (by decide)
    exact (fileread_reads ha rfl).trans (congrArg (Except.map _) hread)
  refine ⟨ha, hrun, ?_⟩
  unfold LineFunction.Exact
  rw [hrun]
  exact id

end LineFiles
end LambdaMoo
