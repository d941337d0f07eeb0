import LambdaMoo.DbFile
import LambdaMoo.DbioValues
import LambdaMoo.StoreInvariant

/-! Objects of the database file: an object is read back as it was exactly if none of its strings
has a line break. -/
namespace LambdaMoo
namespace DbFile

open Codec Dbio

variable {fmt : FloatFormat} {prehistory : Bool} {v : Verbdef} {o : Object}

theorem flagsOf_flagsNum (flags : ObjectFlag → Bool) : flagsOf (flagsNum flags) = flags := by
  funext f
  unfold flagsOf flagsNum
  rw [Int.toNat_natCast]
  cases f <;> exact Nat.testBit_ofBits_lt _ _ (by decide)

theorem permsOf_permsNum (perms : PropPerms) : permsOf (permsNum perms) = perms := by
  unfold permsOf permsNum
  rw [Int.toNat_natCast]
  congr 1 <;> exact Nat.testBit_ofBits_lt _ _ (by decide)

theorem verbBit {i : Nat} (hi : i < 11) : (verbPermsNum v).toNat.testBit i =
    [v.flags.read, v.flags.write, v.flags.exec, v.flags.debug,
      (argSpecNum v.dobj).testBit 0, (argSpecNum v.dobj).testBit 1,
      (argSpecNum v.iobj).testBit 0, (argSpecNum v.iobj).testBit 1, false, false,
      v.flags.notO][i] := by
  unfold verbPermsNum
  rw [Int.toNat_natCast, Nat.testBit_ofBits_lt _ _ hi]
  rfl

theorem verbFlagsOf_verbPermsNum : verbFlagsOf (verbPermsNum v) = v.flags := by
  unfold verbFlagsOf
  rw [verbBit (by decide), verbBit (by decide), verbBit (by decide), verbBit (by decide),
    verbBit (by decide)]
  rfl

theorem argSpecAt_dobj : argSpecAt (verbPermsNum v) 4 = some v.dobj := by
  unfold argSpecAt
  rw [verbBit (by decide), verbBit (by decide)]
  cases v.dobj <;> rfl

theorem argSpecAt_iobj : argSpecAt (verbPermsNum v) 6 = some v.iobj := by
  unfold argSpecAt
  rw [verbBit (by decide), verbBit (by decide)]
  cases v.iobj <;> rfl

theorem ofBits_recovers {n : Nat} (hn : n ≤ 11) (f : Fin n → Bool) :
    Recovers readNum (writeNum (Nat.ofBits f : Nat)) ((Nat.ofBits f : Nat) : Int) True := by
  have hlt := Nat.ofBits_lt_two_pow f
  have hpow : 2 ^ n ≤ 2 ^ 11 := Nat.pow_le_pow_right (by decide) hn
  exact readNum_recovers (by omega) (by omega)

def fitsInt (n : Int) : Prop := -2 ^ 31 ≤ n ∧ n < 2 ^ 31

theorem fitsInt.recovers {n : Int} (h : fitsInt n) : Recovers readNum (writeNum n) n True :=
  readNum_recovers h.1 h.2

/-- A verb as the file has it: without its program, which has a section of its own. -/
def storedVerb (v : Verbdef) : Verbdef := { v with addr := 0, program := none }

def storedProp (p : Propdef) : Propdef := { p with tag := 0 }

def storedVal (p : Pval) : Pval := { p with tag := 0 }

theorem readVerbdef_recovers (howner : fitsInt v.owner) (hprep : fitsInt v.prep) :
    Recovers readVerbdef (writeVerbdef v) (storedVerb v) ('\n' ∉ v.name) := by
  have hfail : ∀ {α : Type} {a : α} {x : Option α}, x = some a → Recovers (orFail x) [] a True := by
    rintro α a x rfl
    exact .of_exact fun rest => rfl
  have hperms : Recovers readNum (writeNum (verbPermsNum v)) (verbPermsNum v) True :=
    ofBits_recovers (by decide) _
  refine ((readString_recovers v.name).bind ?_ fun name => ?_).congr (and_iff_left trivial)
  · refine howner.recovers.bindExact (hperms.bindExact (hprep.recovers.thenNil ?_))
    refine (hfail argSpecAt_dobj).bindNil ((hfail argSpecAt_iobj).bindNil ?_)
    rw [verbFlagsOf_verbPermsNum]
    exact .pure _
  · refine .bind fun owner => .bind fun perms => .bind fun prep => .bind fun dobj => .bind fun iobj => ?_
    exact .pure fun heq => congrArg Verbdef.name heq

theorem readPropdef_recovers (p : Propdef) :
    Recovers readPropdef (writePropdef p) (storedProp p) ('\n' ∉ p.name) :=
  (readString_recovers p.name).last fun _ hx => congrArg Propdef.name hx

theorem readPropval_recovers {p : Pval} (hvar : p.var.every Var.fits = true)
    (howner : fitsInt p.owner) :
    Recovers (readPropval fmt prehistory) (writePropval fmt p) (storedVal p)
      (p.var.every Var.oneLine = true) := by
  have hperms : Recovers readNum (writeNum (permsNum p.perms)) (permsNum p.perms) True :=
    ofBits_recovers (by decide) _
  refine ((readVar_recovers hvar).bind ?_ fun var => ?_).congr (and_iff_left trivial)
  · refine howner.recovers.bindExact (hperms.thenNil ?_)
    rw [permsOf_permsNum]
    exact .pure _
  · exact .bind fun owner => .bind fun perms => .pure fun heq => congrArg Pval.var heq

def stored (o : Object) : Object :=
  { o with
    verbdefs := o.verbdefs.map storedVerb
    propdefs := o.propdefs.map storedProp
    propval := o.propval.map storedVal }

/-- What an object has is kept in an `int` where it is a number. -/
structure Fits (o : Object) : Prop where
  owner : fitsInt o.owner
  location : fitsInt o.location
  contents : fitsInt o.contents
  next : fitsInt o.next
  parent : fitsInt o.parent
  child : fitsInt o.child
  sibling : fitsInt o.sibling
  verbs : ∀ v ∈ o.verbdefs, fitsInt v.owner ∧ fitsInt v.prep
  slots : ∀ p ∈ o.propval, p.var.every Var.fits = true ∧ fitsInt p.owner
  verbdefs : o.verbdefs.length < 2 ^ 31
  propdefs : o.propdefs.length < 2 ^ 31
  propval : o.propval.length < 2 ^ 31

/-- No string of an object has a line break. -/
def OneLine (o : Object) : Prop :=
  '\n' ∉ o.name ∧ (∀ v ∈ o.verbdefs, '\n' ∉ v.name) ∧ (∀ p ∈ o.propdefs, '\n' ∉ p.name) ∧
    ∀ p ∈ o.propval, p.var.every Var.oneLine = true

theorem length_recovers {n : Nat} (hn : n < 2 ^ 31) :
    Recovers readNum (writeNum n) (n : Int) True := readNum_recovers (by omega) (by omega)

theorem readFields_recovers (hf : Fits o) :
    Recovers (readFields fmt prehistory o.id) (writeFields fmt o o.propval) (stored o)
      (OneLine o) := by
  have hflags : Recovers readNum (writeNum (flagsNum o.flags)) (flagsNum o.flags) True :=
    ofBits_recovers (by decide) _
  have hhandles : Recovers readString (writeString []) [] True :=
    (readString_recovers []).congr (by simp)
  have hverbs := Recovers.many writeVerbdef storedVerb fun v hv =>
    readVerbdef_recovers (hf.verbs v hv).1 (hf.verbs v hv).2
  have hprops := Recovers.many writePropdef storedProp (l := o.propdefs) fun p _ =>
    readPropdef_recovers p
  have hval : ∀ p ∈ o.propval, Recovers (readPropval fmt prehistory) (writePropval fmt p)
      (storedVal p) (p.var.every Var.oneLine = true) := fun p hp =>
    readPropval_recovers (hf.slots p hp).1 (hf.slots p hp).2
  have hvals := Recovers.many (writePropval fmt) storedVal hval
  refine (readString_recovers o.name).bind ?_ fun name => ?_
  · refine hhandles.bindExact (hflags.bindExact (hf.owner.recovers.bindExact ?_))
    refine hf.location.recovers.bindExact (hf.contents.recovers.bindExact ?_)
    refine hf.next.recovers.bindExact (hf.parent.recovers.bindExact ?_)
    refine hf.child.recovers.bindExact (hf.sibling.recovers.bindExact ?_)
    refine (length_recovers hf.verbdefs).bindExact (hverbs.bind ?_ fun verbdefs => ?_)
    · refine (length_recovers hf.propdefs).bindExact (hprops.bind ?_ fun propdefs => ?_)
      · refine (length_recovers hf.propval).bindExact ?_
        rw [flagsOf_flagsNum]
        exact hvals.last fun _ hx => congrArg Object.propval hx
      · exact .bind fun n => .bind fun propval => .pure fun heq => congrArg Object.propdefs heq
    · refine .bind fun n => .bind fun propdefs => .bind fun n => .bind fun propval => ?_
      exact .pure fun heq => congrArg Object.verbdefs heq
  · refine .bind fun _ => .bind fun flags => .bind fun owner => .bind fun location => ?_
    refine .bind fun contents => .bind fun next => .bind fun parent => .bind fun child => ?_
    refine .bind fun sibling => .bind fun n => .bind fun verbdefs => .bind fun n => ?_
    refine .bind fun propdefs => .bind fun n => .bind fun propval => ?_
    exact .pure fun heq => congrArg Object.name heq

/-! The line with the number, and the whole object. -/

variable {c : Char} {rest : Str} {n : Nat} {i : Int} {db : Db} {oid : Objid}

theorem takeWhile_digits (hc : c.isDigit = false) :
    (Nat.toDigits 10 n ++ c :: rest).takeWhile Char.isDigit = Nat.toDigits 10 n := by
  rw [List.takeWhile_append_of_pos fun d hd => isDigit_of_mem_toDigits hd,
    List.takeWhile_cons_of_neg (by simp [hc]), List.append_nil]

theorem dropWhile_digits (hc : c.isDigit = false) :
    (Nat.toDigits 10 n ++ c :: rest).dropWhile Char.isDigit = c :: rest := by
  rw [List.dropWhile_append_of_pos fun d hd => isDigit_of_mem_toDigits hd,
    List.dropWhile_cons_of_neg (by simp [hc])]

theorem scanNum_decimal (hc : c.isDigit = false) :
    scanNum.run (decimal i ++ c :: rest) = some (i, c :: rest) := by
  obtain ⟨d, ds, hds⟩ := List.exists_cons_of_ne_nil
    (Nat.toDigits_ne_nil (n := i.natAbs) (b := 10))
  have hd : d.isDigit = true := isDigit_of_mem_toDigits (n := i.natAbs) (hds ▸ List.mem_cons_self)
  unfold decimal scanNum
  split
  · rename_i hneg
    have hdrop : ('-' :: (Nat.toDigits 10 i.natAbs ++ c :: rest)).dropWhile isspace =
        '-' :: (Nat.toDigits 10 i.natAbs ++ c :: rest) := by
      rw [List.dropWhile_cons_of_neg]
      decide
    have hvalue : -((i.natAbs : Nat) : Int) = i := by omega
    simp only [StateT.run, List.cons_append, hdrop, takeWhile_digits hc, dropWhile_digits hc,
      if_neg Nat.toDigits_ne_nil, Option.map_some, Nat.ofDigitChars_ten_toDigits, hvalue]
  · have hdrop : (Nat.toDigits 10 i.natAbs ++ c :: rest).dropWhile isspace =
        Nat.toDigits 10 i.natAbs ++ c :: rest := by
      rw [hds, List.cons_append, List.dropWhile_cons_of_neg]
      simp [isspace_of_isDigit hd]
    have hsign : ∀ e t, Nat.toDigits 10 i.natAbs ++ c :: rest = e :: t → e.isDigit = true := by
      intro e t ht
      rw [hds, List.cons_append, List.cons.injEq] at ht
      exact ht.1 ▸ hd
    simp only [StateT.run, hdrop]
    split
    · exact absurd (hsign _ _ ‹_›) (by decide)
    · exact absurd (hsign _ _ ‹_›) (by decide)
    · have hvalue : ((i.natAbs : Nat) : Int) = i := by omega
      simp only [takeWhile_digits hc, dropWhile_digits hc, if_neg Nat.toDigits_ne_nil,
        Option.map_some, Nat.ofDigitChars_ten_toDigits, hvalue]

theorem scanHeader : (scanChar '#').run ('#' :: rest) = some ((), rest) := rfl

theorem readObject_inUse : (readObject fmt prehistory oid).run
    (('#' :: (decimal oid ++ ['\n'])) ++ rest) =
      (do let o ← readFields fmt prehistory oid; return some o : Reader (Option Object)).run rest := by
  have hline : (fgets 20).run ('\n' :: rest) = some (['\n'], rest) := rfl
  unfold readObject
  rw [StateT.run_bind, List.cons_append, scanHeader, Option.bind_eq_bind, Option.bind_some,
    StateT.run_bind, List.append_assoc, List.singleton_append, scanNum_decimal (by decide),
    Option.bind_eq_bind, Option.bind_some, if_neg (by simp), StateT.run_bind, hline]
  rfl

theorem readObject_recycled : (readObject fmt prehistory oid).run
    (('#' :: (decimal oid ++ " recycled\n".toList)) ++ rest) = some (none, rest) := by
  have hline : (fgets 20).run (" recycled\n".toList ++ rest) =
      some (" recycled\n".toList, rest) := rfl
  unfold readObject
  rw [StateT.run_bind, List.cons_append, scanHeader, Option.bind_eq_bind, Option.bind_some,
    StateT.run_bind, List.append_assoc]
  have hnum : scanNum.run (decimal oid ++ (" recycled\n".toList ++ rest)) =
      some (oid, " recycled\n".toList ++ rest) := scanNum_decimal (by decide)
  rw [hnum, Option.bind_eq_bind, Option.bind_some, if_neg (by simp), StateT.run_bind, hline]
  rfl

theorem readObject_recovers (hf : Fits o) : Recovers (readObject fmt prehistory o.id)
    (('#' :: (decimal o.id ++ ['\n'])) ++ writeFields fmt o o.propval) (some (stored o))
    (OneLine o) :=
  .after (fun _ => readObject_inUse) ((readFields_recovers hf).last fun _ hx => Option.some.inj hx)

theorem writeObject_eq (hi : Db.Intact db) (ho : db.objects oid = some o) :
    writeObject fmt db oid =
      some (('#' :: (decimal oid ++ ['\n'])) ++ writeFields fmt o o.propval) := by
  unfold writeObject
  rw [hi.sound.find_eq, ho]
  simp only [hi.sound.countProperties_eq (.inr (Db.mem_dom_of ho)), Option.bind_eq_bind,
    Option.bind_some, ← hi.slotted.length ho, Db.copySlots_eq (Nat.le_of_eq (Nat.zero_add _)),
    List.drop_zero, List.take_length]
  rfl

theorem writeObject_recycled (hi : Db.Intact db) (ho : db.objects oid = none) :
    writeObject fmt db oid = some ('#' :: (decimal oid ++ " recycled\n".toList)) := by
  unfold writeObject
  rw [hi.sound.find_eq, ho]
  rfl

/-- Values and objects are read back, with the input just after them, exactly if no string in them
has a line break. -/
theorem read_written_iff (fmt : FloatFormat) (prehistory : Bool) :
    (∀ v : Var, v.every Var.fits = true →
      ((∀ rest, (readVar fmt prehistory).run (writeVar fmt v ++ rest) = some (v, rest)) ↔
        v.every Var.oneLine = true)) ∧
    (∀ (db : Db) (oid : Objid) (o : Object), Db.Intact db → db.objects oid = some o → Fits o →
      ∃ w, writeObject fmt db oid = some w ∧
        ((∀ rest, (readObject fmt prehistory oid).run (w ++ rest) = some (some (stored o), rest)) ↔
          OneLine o)) ∧
    ∀ (db : Db) (oid : Objid), Db.Intact db → db.objects oid = none →
      ∃ w, writeObject fmt db oid = some w ∧
        ∀ rest, (readObject fmt prehistory oid).run (w ++ rest) = some (none, rest) := by
  refine ⟨fun v hv => (readVar_recovers hv).iff, fun db oid o hi ho hf => ?_, fun db oid hi ho => ?_⟩
  · refine ⟨_, writeObject_eq hi ho, ?_⟩
    have hid := (hi.sound.ids ho).1
    rw [← hid]
    exact (readObject_recovers hf).iff
  · exact ⟨_, writeObject_recycled hi ho, fun rest => readObject_recycled⟩

instance (n : Int) : Decidable (fitsInt n) := inferInstanceAs (Decidable (_ ∧ _))

instance (o : Object) : Decidable (OneLine o) := inferInstanceAs (Decidable (_ ∧ _))

def Object.numbersFit (o : Object) : Bool :=
  ([o.owner, o.location, o.contents, o.next, o.parent, o.child, o.sibling].all fun n => decide (fitsInt n)) &&
    (o.verbdefs.all fun v => decide (fitsInt v.owner ∧ fitsInt v.prep)) &&
    (o.propval.all fun p => p.var.every Var.fits && decide (fitsInt p.owner)) &&
    [o.verbdefs.length, o.propdefs.length, o.propval.length].all fun n => decide (n < 2 ^ 31)

theorem fits_of_numbersFit (h : Object.numbersFit o = true) : Fits o := by
  simp only [Object.numbersFit, List.all_cons, List.all_nil, List.all_eq_true, Bool.and_eq_true, decide_eq_true_iff,
    Bool.and_true] at h
  obtain ⟨⟨⟨⟨h₁, h₂, h₃, h₄, h₅, h₆, h₇⟩, hverbs⟩, hslots⟩, h₈, h₉, h₁₀⟩ := h
  exact ⟨h₁, h₂, h₃, h₄, h₅, h₆, h₇, hverbs, hslots, h₈, h₉, h₁₀⟩

theorem read_written_iff_house : ∃ (fmt : FloatFormat) (v : Var) (o : Object),
    (∀ rest, (readVar fmt false).run (writeVar fmt v ++ rest) = some (v, rest)) ∧
    Db.house.objects 3 = some o ∧ o.verbdefs.length = 1 ∧ o.propval.length = 1 ∧ o.contents = 6 ∧
    ∃ w, writeObject fmt Db.house 3 = some w ∧
      ∀ rest, (readObject fmt false 3).run (w ++ rest) = some (some (stored o), rest) := by
  have hv : Var.every Var.fits (.list [.str "ab".toList, .list [], .int (-3)]) = true := by decide
  have hline : Var.every Var.oneLine (.list [.str "ab".toList, .list [], .int (-3)]) = true := by decide
  have hbox : (Db.house.objects 3).any (fun o => Object.numbersFit o && decide (OneLine o) &&
      decide (o.verbdefs.length = 1 ∧ o.propval.length = 1 ∧ o.contents = 6)) = true := by decide +kernel
  obtain ⟨o, ho, hbox⟩ := (Option.any_eq_true _ _).mp hbox
  rw [Bool.and_eq_true, Bool.and_eq_true, decide_eq_true_iff, decide_eq_true_iff] at hbox
  obtain ⟨⟨hfits, hone⟩, hverbs, hslots, hcontents⟩ := hbox
  have h := read_written_iff ⟨fun _ => [], fun _ => 0⟩ false
  obtain ⟨w, hw, hread⟩ := h.2.1 _ 3 o Db.house_intact ho (fits_of_numbersFit hfits)
  exact ⟨_, _, o, (h.1 _ hv).mpr hline, ho, hverbs, hslots, hcontents, w, hw, hread.mpr hone⟩

/-- What `chr(10)` gives is cut short. -/
theorem not_read_written : ∃ v, bfChr 10 = .ok v ∧ v.every Var.fits = true ∧
    ∀ fmt : FloatFormat,
      ¬ ∀ rest, (readVar fmt false).run (writeVar fmt v ++ rest) = some (v, rest) := by
  refine ⟨.str ['\n'], rfl, rfl, fun fmt h => ?_⟩
  have hread : Var.every Var.oneLine (.str ['\n']) = true := (readVar_recovers rfl).iff.mp h
  exact absurd hread (by decide)

end DbFile
end LambdaMoo
