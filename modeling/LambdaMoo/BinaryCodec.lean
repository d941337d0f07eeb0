import LambdaMoo.Streams
import Mathlib.Data.List.TakeWhile

/-! The codec of binary strings: what is encoded is decoded to the same bytes, and no call
is seen by those after it. -/
namespace LambdaMoo

variable {s : Stream} {bytes b pend : List UInt8} {t : Str} {c : UInt8}

theorem charByte_byteChar (b : UInt8) : charByte (byteChar b) = b := by
  have hb := b.toNat_lt
  have hvalid : b.toNat.isValidChar := .inl (by omega)
  have hcode : (byteChar b).toNat = b.toNat := by
    unfold byteChar Char.ofNat
    rw [dif_pos hvalid]
    rfl
  rw [charByte, hcode]
  exact UInt8.ofNat_toNat

theorem Stream.text_eq (hs : 0 ∉ s) : Stream.text s = s.map byteChar := by
  unfold Stream.text
  rw [List.takeWhile_eq_self_iff.mpr]
  intro c hc
  simpa using fun h : c = 0 => hs (h ▸ hc)

/-! Escapes. -/

def escaped (c : UInt8) : List UInt8 := rawByte [] c

theorem rawByte_eq (s : Stream) (c : UInt8) : rawByte s c = s ++ escaped c := by
  unfold escaped rawByte
  split <;> simp [Stream.addChar, Stream.addString]

theorem foldl_rawByte (s : Stream) (bytes : List UInt8) :
    bytes.foldl rawByte s = s ++ bytes.flatMap escaped := by
  induction bytes generalizing s with
  | nil => simp
  | cons c bytes ih => rw [List.foldl_cons, ih, rawByte_eq, List.flatMap_cons, List.append_assoc]

/-- The escapes of the 256 bytes: none has a NUL in it, and each is read back. -/
theorem escaped_table : ∀ n : Fin 256, 0 ∉ escaped (UInt8.ofFin n) ∧
    binaryLoop ((escaped (UInt8.ofFin n)).map byteChar) [] = (true, [UInt8.ofFin n]) := by
  decide +kernel

theorem nul_notMem_escaped (bytes : List UInt8) : 0 ∉ bytes.flatMap escaped := by
  rw [List.mem_flatMap]
  rintro ⟨c, -, hc⟩
  exact (escaped_table c.toFin).1 hc

def rawText (bytes : List UInt8) : Str := (bytes.flatMap escaped).map byteChar

theorem rawBytesToBinary_eq (bytes : List UInt8) : rawBytesToBinary [] bytes = (rawText bytes, []) := by
  rw [rawBytesToBinary, foldl_rawByte, List.nil_append, Stream.text_eq (nul_notMem_escaped bytes), rawText]

theorem binaryLoop_stream (u : Stream) (t : Str) (s : Stream) :
    binaryLoop t (u ++ s) = ((binaryLoop t s).1, u ++ (binaryLoop t s).2) := by
  fun_induction binaryLoop t s with
  | case1 s => rfl
  | case2 x y ptr s i j hj hi ih =>
      simp only [Stream.addChar] at ih
      rw [binaryLoop, hi, hj]
      simp only [Stream.addChar, List.append_assoc, ih]
  | case3 x y ptr s hbad =>
      rw [binaryLoop]
      split
      · rename_i i j hi hj
        exact (hbad i j hi hj).elim
      · rfl
  | case4 s ptr hshort =>
      rw [binaryLoop]
      exact hshort
  | case5 c ptr s hescape htilde ih =>
      simp only [Stream.addChar] at ih
      rw [binaryLoop]
      · simp only [Stream.addChar, List.append_assoc, ih]
      · exact hescape
      · exact htilde

theorem binaryLoop_append_aux (t rest : Str) (s : Stream) (h : (binaryLoop t s).1 = true) :
    binaryLoop (t ++ rest) s = binaryLoop rest (binaryLoop t s).2 := by
  fun_induction binaryLoop t s with
  | case1 s => rfl
  | case2 x y ptr s i j hj hi ih =>
      simp only [List.cons_append, binaryLoop, hi, hj]
      exact ih h
  | case3 x y ptr s hbad => cases h
  | case4 s ptr hshort => cases h
  | case5 c ptr s hescape htilde ih =>
      rw [List.cons_append, binaryLoop]
      · exact ih h
      · exact fun _ _ _ hc _ => htilde hc
      · exact htilde

theorem binaryLoop_append (ht : binaryLoop t [] = (true, bytes)) (rest : Str) (s : Stream) :
    binaryLoop (t ++ rest) s = binaryLoop rest (s ++ bytes) := by
  have hs : binaryLoop t s = (true, s ++ bytes) := by
    have := binaryLoop_stream s t []
    rwa [List.append_nil, ht] at this
  rw [binaryLoop_append_aux t rest s (by rw [hs]), hs]

theorem escaped_read (c : UInt8) : binaryLoop ((escaped c).map byteChar) [] = (true, [c]) :=
  (escaped_table c.toFin).2

theorem binaryLoop_rawText (bytes : List UInt8) (s : Stream) :
    binaryLoop (rawText bytes) s = (true, s ++ bytes) := by
  induction bytes generalizing s with
  | nil => simp [rawText, binaryLoop]
  | cons c bytes ih =>
      have hcons : rawText (c :: bytes) = (escaped c).map byteChar ++ rawText bytes := by
        simp [rawText]
      rw [hcons, binaryLoop_append (escaped_read c), ih, List.append_assoc]
      rfl

def rawOf (binary : Str) : Option (List UInt8) :=
  if (binaryLoop binary []).1 then some (binaryLoop binary []).2 else none

theorem binaryToRawBytes_fst (s : Stream) (binary : Str) :
    (binaryToRawBytes s binary).1 = rawOf binary := by
  unfold binaryToRawBytes rawOf
  match binaryLoop binary [] with
  | (true, s) => rfl
  | (false, s) => rfl

theorem rawOf_rawText (bytes : List UInt8) : rawOf (rawText bytes) = some bytes := by
  simp [rawOf, binaryLoop_rawText]

inductive WellFormed : Str → Prop
  | nil : WellFormed []
  | plain {c : Char} {t : Str} (hc : c ≠ '~') (ht : WellFormed t) : WellFormed (c :: t)
  | escape {x y : Char} {t : Str} (hx : (hexDigit x).isSome) (hy : (hexDigit y).isSome) (ht : WellFormed t) :
      WellFormed ('~' :: x :: y :: t)

theorem binaryLoop_iff (t : Str) (s : Stream) : (binaryLoop t s).1 = true ↔ WellFormed t := by
  fun_induction binaryLoop t s with
  | case1 s => exact iff_of_true rfl .nil
  | case2 x y ptr s i j hj hi ih =>
      rw [ih]
      constructor
      · exact .escape (by simp [hi]) (by simp [hj])
      · intro h
        cases h with
        | plain hc ht => exact absurd rfl hc
        | escape hx hy ht => exact ht
  | case3 x y ptr s hbad =>
      refine iff_of_false (by simp) fun h => ?_
      cases h with
      | plain hc ht => exact hc rfl
      | escape hx hy ht =>
          obtain ⟨i, hi⟩ := Option.isSome_iff_exists.mp hx
          obtain ⟨j, hj⟩ := Option.isSome_iff_exists.mp hy
          exact hbad i j hi hj
  | case4 s ptr hshort =>
      refine iff_of_false (by simp) fun h => ?_
      cases h with
      | plain hc ht => exact hc rfl
      | escape hx hy ht => exact hshort _ _ _ rfl
  | case5 c ptr s hescape htilde ih =>
      rw [ih]
      constructor
      · exact .plain htilde
      · intro h
        cases h with
        | plain hc ht => exact ht
        | escape hx hy ht => exact absurd rfl htilde

theorem rawOf_eq_none (t : Str) : rawOf t = none ↔ ¬ WellFormed t := by
  rw [rawOf, ← binaryLoop_iff t []]
  cases (binaryLoop t []).1 <;> simp

/-! `decode_binary`. -/

def runElement (pend : List UInt8) : List Var := if pend = [] then [] else [.str (pend.map byteChar)]

def runs : List UInt8 → List UInt8 → List Var
  | [], pend => runElement pend
  | c :: bytes, pend =>
      if inRun c then runs bytes (pend ++ [c]) else runElement pend ++ .int c.toNat :: runs bytes []

theorem runElement_concat (pend : List UInt8) (c : UInt8) :
    runElement (pend ++ [c]) = [.str ((pend ++ [c]).map byteChar)] := by
  simp [runElement]

theorem countElements_eq (bytes pend : List UInt8) (count : Nat) :
    countElements bytes count (pend ≠ []) + (runElement pend).length = count + (runs bytes pend).length := by
  induction bytes generalizing pend count with
  | nil => rfl
  | cons c bytes ih =>
      unfold countElements runs
      by_cases hc : inRun c = true
      · rw [if_pos hc, if_pos hc, ← Nat.add_right_cancel_iff (n := (runElement (pend ++ [c])).length)]
        have h := ih (pend ++ [c]) (if (decide (pend ≠ [])) = true then count else count + 1)
        simp only [runElement_concat, List.length_singleton, ne_eq, List.append_eq_nil_iff,
          List.cons_ne_self, and_false, not_false_eq_true, decide_true] at h ⊢
        by_cases hpend : pend = []
        · simp_all [runElement]
          omega
        · simp_all [runElement]
      · rw [if_neg hc, if_neg hc]
        have h := ih [] (count + 1)
        simp only [runElement, ne_eq, not_true_eq_false, decide_false, if_true, List.length_nil] at h
        simp only [List.length_append, List.length_cons]
        omega

theorem not_inRun_zero : inRun 0 = false := by decide

theorem putRun_eq (done : List Var) (room : Nat) (hpend : ∀ c ∈ pend, inRun c = true) :
    (Filling.mk (partly done ((runElement pend).length + room)) (done.length + 1) (decide (pend ≠ [])) pend).putRun =
      some ⟨partly (done ++ runElement pend) room, (done ++ runElement pend).length + 1, decide (pend ≠ []), []⟩ := by
  unfold Filling.putRun
  by_cases h : pend = []
  · simp [h, runElement]
  · have hnul : 0 ∉ pend := fun hz => by simpa [not_inRun_zero] using hpend 0 hz
    simp only [h, runElement, ne_eq, not_false_eq_true, decide_true, if_true, if_false, List.length_singleton,
      Stream.text_eq hnul, Nat.add_comm 1 room, put_partly, Option.bind_eq_bind, Option.bind_some,
      List.length_append, Option.pure_def]

theorem fillLoop_eq (done : List Var) (hpend : ∀ c ∈ pend, inRun c = true) :
    ∃ f, fillLoop bytes ⟨partly done (runs bytes pend).length, done.length + 1, decide (pend ≠ []), pend⟩ = some f ∧
      f.r = partly (done ++ runs bytes pend) 0 ∧ f.s = [] := by
  induction bytes generalizing done pend with
  | nil =>
      rw [fillLoop, runs]
      exact ⟨_, putRun_eq done 0 hpend, rfl, rfl⟩
  | cons c bytes ih =>
      rw [fillLoop, Filling.step, runs]
      by_cases hc : inRun c = true
      · rw [if_pos hc, if_pos hc]
        have hpend' : ∀ d ∈ pend ++ [c], inRun d = true := by
          simpa [or_imp, forall_and, hc] using hpend
        simpa [Stream.addChar] using ih done hpend'
      · rw [if_neg hc, if_neg hc]
        have hroom : (runElement pend ++ Var.int c.toNat :: runs bytes []).length =
            (runElement pend).length + ((runs bytes []).length + 1) := by simp
        rw [hroom, putRun_eq done _ hpend]
        simp only [Option.bind_eq_bind, Option.bind_some, put_partly]
        have h := @ih [] (done ++ runElement pend ++ [.int c.toNat]) (by simp)
        simpa [Nat.add_assoc] using h

def decoded (fully : Bool) (bytes : List UInt8) : List Var :=
  if fully then bytes.map fun c => .int c.toNat else runs bytes []

theorem bfDecodeBinary_eq {st : Statics} (hst : st.decode = []) (binary : Str) (more : List Var) :
    ∃ s, bfDecodeBinary st binary more =
      (some (match rawOf binary with
        | none => .error .eInvarg
        | some bytes => .ok (.list (decoded (more.head?.any Var.isTrue) bytes))), { st with binary := s }) := by
  have hraw := binaryToRawBytes_fst st.binary binary
  unfold bfDecodeBinary
  revert hraw
  match binaryToRawBytes st.binary binary with
  | (none, s) =>
      intro hraw
      rw [← hraw]
      exact ⟨s, rfl⟩
  | (some bytes, s) =>
      intro hraw
      rw [← hraw]
      refine ⟨s, ?_⟩
      simp only [decoded]
      split
      · rfl
      · have hcount : countElements bytes 0 false = (runs bytes []).length := by
          simpa [runElement] using countElements_eq bytes [] 0
        obtain ⟨f, hf, hr, hs⟩ := @fillLoop_eq bytes [] [] (by simp)
        have hstart : List.replicate (countElements bytes 0 false) none = partly [] (runs bytes []).length := by
          rw [hcount]
          rfl
        rw [hst, hstart]
        simp only [List.length_nil, Nat.zero_add, ne_eq, not_true_eq_false, decide_false] at hf
        rw [hf]
        simp only [hr, hs, value_partly, List.nil_append, Option.map_some, ← hst]

/-! `encode_binary`. -/

def unencodable : Var → Prop
  | .int num => num < 0 ∨ 256 ≤ num
  | .str _ | .list _ => False
  | _ => True

/-- A value is an element of a list, at some depth. -/
inductive Within : List Var → Var → Prop
  | here {l : List Var} {v : Var} (hv : v ∈ l) : Within l v
  | deeper {l l' : List Var} {v : Var} (hl : .list l' ∈ l) (hv : Within l' v) : Within l v

mutual
def flatBytes : Var → List UInt8
  | .int num => [UInt8.ofNat num.toNat]
  | .str str => str.map charByte
  | .list list => flatBytesList list
  | _ => []
def flatBytesList : List Var → List UInt8
  | [] => []
  | v :: list => flatBytes v ++ flatBytesList list
end

theorem within_cons {l : List Var} {v w : Var} :
    Within (v :: l) w ↔ (w = v ∨ (∃ l', v = .list l' ∧ Within l' w)) ∨ Within l w := by
  constructor
  · intro h
    cases h with
    | here hv =>
        obtain rfl | hv := List.mem_cons.mp hv
        · exact .inl (.inl rfl)
        · exact .inr (.here hv)
    | deeper hl hv =>
        obtain rfl | hl := List.mem_cons.mp hl
        · exact .inl (.inr ⟨_, rfl, hv⟩)
        · exact .inr (.deeper hl hv)
  · rintro ((rfl | ⟨l', rfl, hv⟩) | (hv | ⟨hl, hv⟩))
    · exact .here (by simp)
    · exact .deeper (by simp) hv
    · exact .here (List.mem_cons_of_mem _ hv)
    · exact .deeper (List.mem_cons_of_mem _ hl) hv

theorem not_within_nil {w : Var} : ¬ Within [] w := by
  intro h
  cases h with
  | here hv => cases hv
  | deeper hl hv => cases hl

mutual
theorem encodeBinary_spec (s : Stream) (v : Var) :
    (encodeBinary s v = (true, s ++ flatBytes v) ∧ ∀ w, Within [v] w → ¬ unencodable w) ∨
      ((encodeBinary s v).1 = false ∧ ∃ w, Within [v] w ∧ unencodable w) := by
  have hself : Within [v] v := .here (by simp)
  have honly : (∀ l, v ≠ .list l) → ∀ w, Within [v] w → w = v := by
    intro hv w hw
    obtain (rfl | ⟨l, rfl, -⟩) | hw := within_cons.mp hw
    · rfl
    · exact absurd rfl (hv l)
    · exact absurd hw not_within_nil
  match v with
  | .int num =>
      unfold encodeBinary
      split
      · next h => exact .inr ⟨rfl, _, hself, h⟩
      · next h =>
          refine .inl ⟨rfl, fun w hw => ?_⟩
          obtain rfl := honly (by simp) w hw
          exact h
  | .str str =>
      refine .inl ⟨rfl, fun w hw => ?_⟩
      obtain rfl := honly (by simp) w hw
      exact id
  | .list list =>
      obtain ⟨h, hall⟩ | ⟨h, w, hw, hbad⟩ := encodeBinaryList_spec s list
      · refine .inl ⟨h, fun w hw => ?_⟩
        obtain (rfl | ⟨l, hl, hw⟩) | hw := within_cons.mp hw
        · exact id
        · cases hl
          exact hall w hw
        · exact absurd hw not_within_nil
      · exact .inr ⟨h, w, .deeper (by simp) hw, hbad⟩
  | .obj _ | .err _ | .clear | .none | .catchMarker _ | .finallyMarker _ | .float _ =>
      exact .inr ⟨rfl, _, hself, trivial⟩
theorem encodeBinaryList_spec (s : Stream) (l : List Var) :
    (encodeBinaryList s l = (true, s ++ flatBytesList l) ∧ ∀ w, Within l w → ¬ unencodable w) ∨
      ((encodeBinaryList s l).1 = false ∧ ∃ w, Within l w ∧ unencodable w) := by
  match l with
  | [] => exact .inl ⟨by simp [encodeBinaryList, flatBytesList], fun w hw => absurd hw not_within_nil⟩
  | v :: l =>
      obtain ⟨h, hall⟩ | ⟨h, w, hw, hbad⟩ := encodeBinary_spec s v
      · rw [encodeBinaryList, h]
        obtain ⟨h', hall'⟩ | ⟨h', w, hw, hbad⟩ := encodeBinaryList_spec (s ++ flatBytes v) l
        · refine .inl ⟨by simp [h', flatBytesList], fun w hw => ?_⟩
          obtain hw | hw := within_cons.mp hw
          · exact hall w (within_cons.mpr (.inl hw))
          · exact hall' w hw
        · exact .inr ⟨h', w, within_cons.mpr (.inr hw), hbad⟩
      · refine .inr ⟨?_, w, ?_, hbad⟩
        · rw [encodeBinaryList]
          revert h
          match encodeBinary s v with
          | (false, s) => exact fun _ => rfl
          | (true, s) => exact fun h => nomatch h
        · obtain hw | hw := within_cons.mp hw
          · exact within_cons.mpr (.inl hw)
          · exact absurd hw not_within_nil
end

def encodable (l : List Var) : Prop := ∀ w, Within l w → ¬ unencodable w

theorem encodable_nil : encodable [] := fun _ hw => absurd hw not_within_nil

theorem encodable_cons (v : Var) (l : List Var) : encodable (v :: l) ↔ encodable [v] ∧ encodable l := by
  simp only [encodable, within_cons, not_within_nil, or_false]
  exact forall₂_or_left ..

theorem encodable_append (l m : List Var) : encodable (l ++ m) ↔ encodable l ∧ encodable m := by
  induction l with
  | nil => simp [encodable_nil]
  | cons v l ih => rw [List.cons_append, encodable_cons, ih, encodable_cons v l, and_assoc]

theorem encodable_single {v : Var} (hv : ∀ l, v ≠ .list l) : encodable [v] ↔ ¬ unencodable v := by
  constructor
  · exact fun h => h v (.here (by simp))
  · intro h w hw
    obtain (rfl | ⟨l, rfl, -⟩) | hw := within_cons.mp hw
    · exact h
    · exact absurd rfl (hv l)
    · exact absurd hw not_within_nil

theorem encodable_list (l : List Var) : encodable [.list l] ↔ encodable l := by
  constructor
  · exact fun h w hw => h w (.deeper (by simp) hw)
  · intro h w hw
    obtain (rfl | ⟨l', hl', hw⟩) | hw := within_cons.mp hw
    · exact id
    · cases hl'
      exact h w hw
    · exact absurd hw not_within_nil

theorem flatBytesList_append (l m : List Var) :
    flatBytesList (l ++ m) = flatBytesList l ++ flatBytesList m := by
  induction l with
  | nil => simp [flatBytesList]
  | cons v l ih => simp [flatBytesList, ih]

theorem encodable_byte (c : UInt8) : encodable [.int c.toNat] := by
  have hc := c.toNat_lt
  rw [encodable_single (by simp)]
  simp only [unencodable]
  omega

theorem flatBytes_byte (c : UInt8) : flatBytes (.int c.toNat) = [c] := by
  simp [flatBytes]

theorem flatBytesList_runElement (pend : List UInt8) : flatBytesList (runElement pend) = pend := by
  unfold runElement
  split
  · next h => simp [flatBytesList, h]
  · simp [flatBytesList, flatBytes, Function.comp_def, charByte_byteChar]

theorem encodable_runElement (pend : List UInt8) : encodable (runElement pend) := by
  unfold runElement
  split
  · exact encodable_nil
  · exact (encodable_single (by simp)).mpr id

theorem flatBytesList_runs (bytes pend : List UInt8) : flatBytesList (runs bytes pend) = pend ++ bytes := by
  induction bytes generalizing pend with
  | nil => rw [runs, flatBytesList_runElement, List.append_nil]
  | cons c bytes ih =>
      unfold runs
      split
      · rw [ih, List.append_assoc]
        rfl
      · rw [flatBytesList_append, flatBytesList_runElement, flatBytesList, flatBytes_byte, ih]
        rfl

theorem encodable_runs (bytes pend : List UInt8) : encodable (runs bytes pend) := by
  induction bytes generalizing pend with
  | nil => exact encodable_runElement pend
  | cons c bytes ih =>
      unfold runs
      split
      · exact ih _
      · rw [encodable_append, encodable_cons]
        exact ⟨encodable_runElement pend, encodable_byte c, ih []⟩

theorem decoded_spec (fully : Bool) (bytes : List UInt8) :
    encodable (decoded fully bytes) ∧ flatBytesList (decoded fully bytes) = bytes := by
  unfold decoded
  cases fully with
  | false => exact ⟨encodable_runs bytes [], flatBytesList_runs bytes []⟩
  | true =>
      induction bytes with
      | nil => exact ⟨encodable_nil, rfl⟩
      | cons c bytes ih =>
          simp only [if_true, List.map_cons] at ih ⊢
          rw [encodable_cons, flatBytesList, flatBytes_byte, ih.2]
          exact ⟨⟨encodable_byte c, ih.1⟩, rfl⟩

theorem bfEncodeBinary_eq {st : Statics} (hraw : st.raw = []) (hst : st.encode = []) (arglist : List Var) :
    (bfEncodeBinary st arglist).2 = st ∧
      ((encodable arglist ∧ (bfEncodeBinary st arglist).1 = .ok (.str (rawText (flatBytesList arglist)))) ∨
        (¬ encodable arglist ∧ (bfEncodeBinary st arglist).1 = .error .eInvarg)) := by
  unfold bfEncodeBinary
  rw [hst]
  obtain ⟨h, hall⟩ | ⟨h, w, hw, hbad⟩ := encodeBinaryList_spec [] arglist
  · rw [h, hraw, List.nil_append]
    simp only [rawBytesToBinary_eq]
    refine ⟨?_, .inl ⟨hall, trivial⟩⟩
    cases st
    simp_all
  · revert h
    match encodeBinaryList [] arglist with
    | (true, s) => exact fun h => nomatch h
    | (false, s) =>
        intro _
        refine ⟨?_, .inr ⟨fun hall => hall w hw hbad, rfl⟩⟩
        cases st
        simp_all

/-! Calls one after the other. -/

/-- A call of one of the functions that use the streams. -/
inductive CodecCall
  | rawBytesToBinary (buffer : List UInt8)
  | binaryToRawBytes (binary : Str)
  | decodeBinary (binary : Str) (more : List Var)
  | encodeBinary (arglist : List Var)

inductive CodecResult
  | binary (binary : Str)
  | bytes (bytes : Option (List UInt8))
  | value (value : Option (Except Error Var))

def CodecCall.perform (st : Statics) : CodecCall → CodecResult × Statics
  | .rawBytesToBinary buffer =>
      let (binary, raw) := LambdaMoo.rawBytesToBinary st.raw buffer
      (.binary binary, { st with raw })
  | .binaryToRawBytes s =>
      let (bytes, binary) := LambdaMoo.binaryToRawBytes st.binary s
      (.bytes bytes, { st with binary })
  | .decodeBinary binary more =>
      let (value, st) := bfDecodeBinary st binary more
      (.value value, st)
  | .encodeBinary arglist =>
      let (value, st) := bfEncodeBinary st arglist
      (.value (some value), st)

def performAll (st : Statics) : List CodecCall → List CodecResult × Statics
  | [] => ([], st)
  | call :: calls =>
      let (result, st) := call.perform st
      let (results, st) := performAll st calls
      (result :: results, st)

/-- Only the stream of `binary_to_raw_bytes`, which is reset before it is used, is not
empty between the calls. -/
structure Statics.Clean (st : Statics) : Prop where
  raw : st.raw = []
  decode : st.decode = []
  encode : st.encode = []

theorem CodecCall.perform_clean {st : Statics} (hst : st.Clean) (call : CodecCall) :
    (call.perform st).2.Clean ∧ (call.perform st).1 = (call.perform .initial).1 := by
  obtain ⟨hraw, hdecode, hencode⟩ := hst
  cases call with
  | rawBytesToBinary buffer =>
      simp only [CodecCall.perform, hraw, Statics.initial]
      exact ⟨⟨rfl, hdecode, hencode⟩, trivial⟩
  | binaryToRawBytes s =>
      simp only [CodecCall.perform, binaryToRawBytes_fst]
      exact ⟨⟨hraw, hdecode, hencode⟩, trivial⟩
  | decodeBinary binary more =>
      obtain ⟨s, h⟩ := bfDecodeBinary_eq hdecode binary more
      obtain ⟨s', h'⟩ := @bfDecodeBinary_eq .initial rfl binary more
      simp only [CodecCall.perform, h, h']
      exact ⟨⟨hraw, hdecode, hencode⟩, trivial⟩
  | encodeBinary arglist =>
      obtain ⟨hst, h⟩ := bfEncodeBinary_eq hraw hencode arglist
      obtain ⟨-, h'⟩ := @bfEncodeBinary_eq .initial rfl rfl arglist
      simp only [CodecCall.perform, hst]
      refine ⟨⟨hraw, hdecode, hencode⟩, ?_⟩
      by_cases hok : encodable arglist
      · simp_all
      · simp_all

theorem performAll_clean {st : Statics} (hst : st.Clean) (calls : List CodecCall) :
    (performAll st calls).2.Clean ∧
      (performAll st calls).1 = calls.map fun call => (call.perform .initial).1 := by
  induction calls generalizing st with
  | nil => exact ⟨hst, rfl⟩
  | cons call calls ih =>
      obtain ⟨hst', hresult⟩ := call.perform_clean hst
      obtain ⟨hclean, hresults⟩ := ih hst'
      exact ⟨hclean, by rw [List.map_cons, ← hresult, ← hresults]; rfl⟩

/-- What the codec is for, with the streams as they are. -/
structure RoundTrips (st : Statics) : Prop where
  raw : ∀ b, (binaryToRawBytes st.binary (rawBytesToBinary st.raw b).1).1 = some b
  decoded : ∀ s more bytes, (binaryToRawBytes st.binary s).1 = some bytes →
    ∃ v, (bfDecodeBinary st s more).1 = some (.ok v) ∧
      (bfEncodeBinary (bfDecodeBinary st s more).2 [v]).1 = .ok (.str (rawBytesToBinary st.raw bytes).1)
  accepted : ∀ s, (binaryToRawBytes st.binary s).1.isSome ↔ WellFormed s
  malformed : ∀ s more, ¬ WellFormed s → (bfDecodeBinary st s more).1 = some (.error .eInvarg)
  refused : ∀ arglist, (bfEncodeBinary st arglist).1 = .error .eInvarg ↔
    ∃ v, Within arglist v ∧ unencodable v

theorem Statics.Clean.roundTrips {st : Statics} (hst : st.Clean) : RoundTrips st where
  raw b := by rw [hst.raw, rawBytesToBinary_eq, binaryToRawBytes_fst, rawOf_rawText]
  decoded s more bytes h := by
    rw [binaryToRawBytes_fst] at h
    obtain ⟨s', hdecode⟩ := bfDecodeBinary_eq hst.decode s more
    rw [h] at hdecode
    obtain ⟨hok, hflat⟩ := decoded_spec (more.head?.any Var.isTrue) bytes
    obtain ⟨-, ⟨-, hencode⟩ | ⟨hbad, -⟩⟩ := @bfEncodeBinary_eq { st with binary := s' } hst.raw hst.encode
      [.list (LambdaMoo.decoded (more.head?.any Var.isTrue) bytes)]
    · refine ⟨.list (LambdaMoo.decoded (more.head?.any Var.isTrue) bytes), by rw [hdecode], ?_⟩
      rw [hdecode, hencode, hst.raw, rawBytesToBinary_eq]
      simp [flatBytesList, flatBytes, hflat]
    · exact absurd ((encodable_list _).mpr hok) hbad
  accepted s := by
    rw [binaryToRawBytes_fst, ← Option.ne_none_iff_isSome, ne_eq, rawOf_eq_none, not_not]
  malformed s more h := by
    obtain ⟨s', hdecode⟩ := bfDecodeBinary_eq hst.decode s more
    rw [hdecode, (rawOf_eq_none s).mpr h]
  refused arglist := by
    have hiff : (∃ v, Within arglist v ∧ unencodable v) ↔ ¬ encodable arglist := by
      simp [encodable]
    rw [hiff]
    obtain ⟨-, ⟨hok, h⟩ | ⟨hbad, h⟩⟩ := bfEncodeBinary_eq hst.raw hst.encode arglist
    · simp [h, hok]
    · simp [h, hbad]

/-- After any calls the codec gives what it was to give, and each call has given what it
would have given as the first. -/
theorem performAll_roundTrips (calls : List CodecCall) :
    RoundTrips (performAll .initial calls).2 ∧
      (performAll .initial calls).1 = calls.map fun call => (call.perform .initial).1 := by
  obtain ⟨hclean, hresults⟩ := @performAll_clean .initial ⟨rfl, rfl, rfl⟩ calls
  exact ⟨hclean.roundTrips, hresults⟩

end LambdaMoo
