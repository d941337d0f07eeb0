import LambdaMoo.FileReading
import LambdaMoo.ListEdit

/-! What the functions that read return, against the bytes of the file. -/
namespace LambdaMoo
namespace FileHandles

open Stdio

variable {type : FileType} {f f' : File UInt8} {l u t data : List UInt8} {c : UInt8} {ft : FileTable}
  {env : FileEnv} {fhandle : Var} {i k n : Nat}

/-! Counts. -/

theorem filtered_append (type : FileType) (a b : List UInt8) :
    filtered type (a ++ b) = filtered type a ++ filtered type b := by
  rw [filtered, List.flatMap_append, List.map_append]
  rfl

def streamOf (type : FileType) (data : List UInt8) : Stream := data.flatMap (filterByte type)

theorem addString_filtered (type : FileType) (a b : List UInt8) :
    (streamOf type a).addString (filtered type b) = streamOf type (a ++ b) := by
  have hbytes : (filtered type b).map charByte = b.flatMap (filterByte type) := by
    rw [filtered, List.map_map]
    exact (List.map_congr_left fun c _ => charByte_byteChar c).trans (List.map_id _)
  rw [Stream.addString, hbytes, streamOf, streamOf, List.flatMap_append]

theorem text_streamOf (type : FileType) (data : List UInt8) : (streamOf type data).text = filtered type data :=
  Stream.text_eq (nul_notMem_filtered type data)

/-- Where a read by chunks of `q` bytes ends that has got `len` bytes and wants `n`: at the end
of the file, or after a chunk with which it has enough. -/
structure EndsAt (q n len room k : Nat) : Prop where
  within : k ≤ room
  ends : k = room ∨ q ∣ k ∧ n ≤ len + k
  exact : len < n → q ∣ n - len → len + k ≤ n

theorem EndsAt.more {q n len room k : Nat} (hq : q ≤ room) (hlen : len + q < n)
    (h : EndsAt q n (len + q) (room - q) k) : EndsAt q n len room (q + k) := by
  refine ⟨?_, ?_, fun _ hdvd => ?_⟩
  · have := h.within
    omega
  · obtain hend | ⟨hdvd, hn⟩ := h.ends
    · exact .inl (by omega)
    · exact .inr ⟨Nat.dvd_add_right (Nat.dvd_refl q) |>.mpr hdvd, by omega⟩
  · have hrest : n - len = q + (n - (len + q)) := by omega
    rw [hrest, Nat.dvd_add_right (Nat.dvd_refl q)] at hdvd
    have := h.exact hlen hdvd
    omega

def reading (type : FileType) (data : List UInt8) : FileStreams := { FileStreams.initial with read := streamOf type data }

theorem readLoop_spec {q : Nat} (hq : 0 < q) {done : List UInt8} (hlen : done.length < n)
    (hsome : done ≠ [] ∨ f.rest ≠ []) : ∃ k e, EndsAt q n done.length f.rest.length k ∧
      readLoop type q n done.length (reading type done) f =
        (some (filtered type (done ++ f.rest.take k)), .initial, f.advance k e) := by
  induction hroom : f.rest.length using Nat.strong_induction_on generalizing done f with
  | _ room ih =>
      subst hroom
      have hread : fread q f = (f.rest.take q, f.advance (f.rest.take q).length (f.rest.length < q)) := rfl
      have hfilter : ∀ buffer : List UInt8, inFilter (reading type done) type buffer buffer.length =
          (filtered type buffer, reading type done) := fun buffer => by
        rw [inFilter_of_empty rfl rfl, Int.toNat_natCast, List.take_length]
      have hsize : (f.rest.take q).length = min q f.rest.length := List.length_take
      have hadd : (reading type done).read.addString (filtered type (f.rest.take q)) =
          streamOf type (done ++ f.rest.take q) := addString_filtered type done _
      rw [readLoop]
      split
      next buffer f' h =>
      rw [hread] at h
      cases h
      have hgot : ¬ (f.rest.take q = [] ∧ (done.length : Int) = 0) := by
        rintro ⟨hbuffer, hdone⟩
        obtain hne | hne := hsome
        · exact hne (List.length_eq_zero_iff.mp (by omega))
        · rw [List.take_eq_nil_iff] at hbuffer
          obtain h | h := hbuffer
          · omega
          · exact hne h
      rw [if_neg hgot]
      simp only [hfilter, hadd]
      split
      · next hmore =>
          -- a chunk, and not yet enough
          obtain ⟨hne, hless⟩ := hmore
          have hpos := List.length_pos_iff.mpr hne
          have hless' : (done ++ f.rest.take q).length < n := by
            rw [List.length_append]
            omega
          have hleft : (f.advance (f.rest.take q).length (f.rest.length < q)).rest = f.rest.drop (min q f.rest.length) := by
            rw [File.advance_rest, hsize]
          obtain ⟨k, e, hends, hloop⟩ := ih _ (by rw [hleft, List.length_drop]; omega) hless'
            (.inl (by simp [hne])) rfl
          rw [hleft] at hends hloop
          have hcast : (done.length : Int) + (f.rest.take q).length = (done ++ f.rest.take q).length := by
            rw [List.length_append]
            push_cast
            rfl
          refine ⟨min q f.rest.length + k, decide (f.rest.length < q) || e, ?_, ?_⟩
          swap
          · have htake : f.rest.take (min q f.rest.length + k) =
                f.rest.take q ++ (f.rest.drop (min q f.rest.length)).take k := by
              rw [List.take_add, ← List.take_eq_take_min]
            rw [hcast]
            refine hloop.trans ?_
            rw [htake, List.append_assoc, hsize, advance_advance]
          · rw [List.length_append, hsize, List.length_drop] at hends
            obtain hle | hle := Nat.le_total q f.rest.length
            · rw [Nat.min_eq_left hle] at hends ⊢
              exact hends.more hle (by omega)
            · rw [Nat.min_eq_right hle] at hends ⊢
              have := hends.within
              obtain rfl : k = 0 := by omega
              exact ⟨le_refl _, .inl rfl, fun _ _ => by omega⟩
      · next hmore =>
          refine ⟨min q f.rest.length, decide (f.rest.length < q), ⟨Nat.min_le_right _ _, ?_, fun _ hdvd => ?_⟩, ?_⟩
          · obtain hle | hle := Nat.le_total q f.rest.length
            · by_cases hempty : f.rest.take q = []
              · rw [hempty, List.length_nil] at hsize
                omega
              · have hchunk : q ∣ min q f.rest.length := (Nat.min_eq_left hle).symm ▸ Nat.dvd_refl q
                refine .inr ⟨hchunk, ?_⟩
                by_contra hno
                exact hmore ⟨hempty, by omega⟩
            · exact .inl (Nat.min_eq_right hle)
          · have := Nat.le_of_dvd (by omega) hdvd
            have := Nat.min_le_left q f.rest.length
            omega
          · have htake : f.rest.take (min q f.rest.length) = f.rest.take q := by rw [← List.take_eq_take_min]
            rw [htake, text_streamOf, hsize]
            rfl

/-! A history leaves nothing behind in the streams. -/

theorem readLoop_streams (type : FileType) (q : Nat) (recordLength : Int) {len : Int} (hlen : 0 ≤ len) {read : Stream}
    (hread : len = 0 → read = []) (f : File UInt8) :
    (readLoop type q recordLength len { FileStreams.initial with read } f).2.1 = .initial := by
  induction hroom : f.rest.length using Nat.strong_induction_on generalizing len read f with
  | _ room ih =>
      subst hroom
      rw [readLoop]
      split
      next buffer f' h =>
      split
      · next hnone => rw [hread hnone.2]; rfl
      · simp only [@inFilter_of_empty { FileStreams.initial with read } rfl rfl]
        split
        · next hmore =>
            have hpos := List.length_pos_iff.mpr hmore.1
            exact ih _ (fread_lt h hmore.1) (by omega) (fun h => absurd h (by omega)) f' rfl
        · rfl

theorem perform_initial (call : ReadCall) : FileStreams.initial.perform call = .initial := by
  cases call with
  | readline ft env fhandle =>
      simp only [FileStreams.perform, FileTable.bfFileReadline]
      split
      · rfl
      · next i f _ =>
          obtain ⟨f', -, -, hstep⟩ := fileReadLine_step f
          cases hseen : seen f.rest with
          | nil =>
              rw [hseen] at hstep
              obtain ⟨len, hread, -⟩ := hstep
              rw [hread]
          | cons x xs =>
              rw [hseen] at hstep
              obtain ⟨line, len, hread, -, -⟩ := hstep
              simp only [hread, inFilter_eq]
  | readlines ft env fhandle first last =>
      simp only [FileStreams.perform, FileTable.bfFileReadlines]
      split
      · rfl
      split
      · rfl
      next i f _ =>
      obtain ⟨f', -, hskip, -⟩ := skipLines_eq (first - 1).toNat f.rewind
      obtain ⟨f'', -, hcollect⟩ := collectLines_eq (ft.handles i).type (last - (first - 1)).toNat f'
      rw [hskip]
      dsimp only
      split
      · rfl
      · rw [hcollect]
        split <;> rfl
  | read ft env fhandle recordLength =>
      simp only [FileStreams.perform, FileTable.bfFileRead]
      split
      · rfl
      next i f _ =>
      have hloop := fun q => readLoop_streams (ft.handles i).type q recordLength (Int.le_refl 0) (fun _ => rfl) f
      split
      · exact hloop _
      · exact hloop _

theorem after_eq (calls : List ReadCall) : FileStreams.after calls = .initial := by
  unfold FileStreams.after
  induction calls with
  | nil => rfl
  | cons call calls ih => rw [List.foldl_cons, perform_initial, ih]

/-! `file_read`. -/

/-- The bytes that a call reads are those that it is asked for, as far as there are any. -/
def FileTable.ReadsExactly (ft : FileTable) (st : FileStreams) (env : FileEnv) (fhandle : Var) (recordLength : Int)
    (i : Nat) (f : File UInt8) : Prop :=
  ∃ f' st', f'.bytes = f.bytes ∧ f'.pos = f.pos + min recordLength.toNat f.rest.length ∧
    ft.bfFileRead st env fhandle recordLength =
      (.var (.str (filtered (ft.handles i).type (f.rest.take (min recordLength.toNat f.rest.length)))),
        ft.fileHandleSetFile i f', st')

theorem bfFileRead_eq (h : ft.readable env fhandle = .ok (i, f)) (hrest : f.rest ≠ []) (hn : 1 ≤ n)
    (hn' : (n : Int) ≤ intMax) : ∃ k e, EndsAt (min n fileIoBufferLength) n 0 f.rest.length k ∧
      ft.bfFileRead .initial env fhandle n =
        (.var (.str (filtered (ft.handles i).type (f.rest.take k))), ft.fileHandleSetFile i (f.advance k e), .initial) := by
  obtain ⟨k, e, hends, hloop⟩ := @readLoop_spec (ft.handles i).type f n (min n fileIoBufferLength)
    (Nat.lt_min.mpr ⟨hn, by decide⟩) [] hn (.inr hrest)
  refine ⟨k, e, hends, ?_⟩
  have hbig : fileIoBufferLength = 4096 := rfl
  have hsize : (if (fileIoBufferLength : Int) < (n : Int) % 2 ^ 64 then fileIoBufferLength else (n : Int).toNat) =
      min n fileIoBufferLength := by
    rw [intMax_eq] at hn'
    split <;> omega
  rw [FileTable.bfFileRead]
  simp only [h, hsize]
  have hloop' : readLoop (ft.handles i).type (min n fileIoBufferLength) n 0 .initial f = _ := hloop
  rw [hloop']
  rfl

theorem endsAt_iff {m : Nat} (hn : 1 ≤ n) (h : EndsAt (min n fileIoBufferLength) n 0 m k) :
    k = min n m ↔ n ≤ fileIoBufferLength ∨ fileIoBufferLength ∣ n ∨ m ≤ n := by
  have hwithin := h.within
  have hends := h.ends
  obtain hlt | hle := Nat.lt_or_ge fileIoBufferLength n
  swap
  · have hdvd : min n fileIoBufferLength ∣ n - 0 :=
      ⟨1, by rw [Nat.min_eq_left hle, Nat.mul_one, Nat.sub_zero]⟩
    have hexact := h.exact hn hdvd
    refine iff_of_true ?_ (.inl hle)
    omega
  · rw [Nat.min_eq_right (Nat.le_of_lt hlt)] at hends
    constructor
    · intro hk
      obtain hall | ⟨hdvd, hgot⟩ := hends
      · exact .inr (.inr (by omega))
      · by_cases hm : m ≤ n
        · exact .inr (.inr hm)
        · rw [hk, Nat.min_eq_left (by omega)] at hdvd
          exact .inr (.inl hdvd)
    · rintro (hle | hdvd | hm)
      · omega
      · have hexact := h.exact hn (by rw [Nat.min_eq_right (Nat.le_of_lt hlt), Nat.sub_zero]; exact hdvd)
        omega
      · omega

theorem fileHandleSetFile_inj (h : ft.fileHandleSetFile i f = ft.fileHandleSetFile i f') : f = f' := by
  have hfile := congrArg (fun ft => (ft.handles i).file) h
  simpa [FileTable.fileHandleSetFile, FileTable.set] using hfile

theorem readsExactly_iff (h : ft.readable env fhandle = .ok (i, f)) (hrest : f.rest ≠ []) (hn : 1 ≤ n)
    (hn' : (n : Int) ≤ intMax) : ft.ReadsExactly .initial env fhandle n i f ↔
      n ≤ fileIoBufferLength ∨ fileIoBufferLength ∣ n ∨ f.rest.length ≤ n := by
  obtain ⟨k, e, hends, hdo⟩ := bfFileRead_eq h hrest hn hn'
  rw [← endsAt_iff hn hends]
  unfold FileTable.ReadsExactly
  rw [hdo, Int.toNat_natCast]
  constructor
  · rintro ⟨f', st', -, hpos, hresult⟩
    simp only [Prod.mk.injEq] at hresult
    rw [← fileHandleSetFile_inj hresult.2.1] at hpos
    exact Nat.add_left_cancel hpos
  · rintro rfl
    exact ⟨f.advance _ e, .initial, rfl, rfl, rfl⟩

/-- After any calls that read, `file_read` reads what it is asked for just where that is one
buffer at most, or fills its buffers, or is all that there is. -/
theorem fileRead_exact_iff (calls : List ReadCall) {recordLength : Int} (h : ft.readable env fhandle = .ok (i, f))
    (hrest : f.rest ≠ []) (hn : 1 ≤ recordLength) (hn' : recordLength ≤ intMax) :
    ft.ReadsExactly (.after calls) env fhandle recordLength i f ↔
      recordLength ≤ 4096 ∨ 4096 ∣ recordLength ∨ f.rest.length ≤ recordLength := by
  obtain ⟨n, rfl⟩ := Int.eq_ofNat_of_zero_le (show 0 ≤ recordLength by omega)
  rw [after_eq, readsExactly_iff h hrest (by omega) hn']
  have hbig : fileIoBufferLength = 4096 := rfl
  rw [hbig]
  omega

def oneFile (type : FileType) (bytes : List UInt8) : FileTable :=
  FileTable.initial.set 0 ⟨true, ['f'], type, { read := true }, some (.opened bytes)⟩

theorem oneFile_readable (type : FileType) (bytes : List UInt8) :
    (oneFile type bytes).readable FileTable.anyFile (.int 0) = .ok (0, .opened bytes) := rfl

theorem fileRead_exact_one : (oneFile .text [65]).ReadsExactly (.after []) FileTable.anyFile (.int 0) 1 0 (.opened [65]) ↔
    (1 : Int) ≤ 4096 ∨ (4096 : Int) ∣ 1 ∨ ((File.opened [(65 : UInt8)]).rest.length : Int) ≤ 1 :=
  fileRead_exact_iff [] (oneFile_readable .text [65]) (by decide) (by decide) (by decide)

/-- Of 8192 bytes, all are read where 5000 are asked for. -/
theorem fileRead_beyond : ¬ (oneFile .text (List.replicate 8192 65)).ReadsExactly .initial FileTable.anyFile (.int 0) 5000 0
    (.opened (List.replicate 8192 65)) := by
  have hlength : (File.opened (List.replicate 8192 (65 : UInt8))).rest.length = 8192 := by
    rw [File.rest, File.opened, List.drop_zero, List.length_replicate]
  have hrest : (File.opened (List.replicate 8192 (65 : UInt8))).rest ≠ [] := by
    intro h
    rw [h] at hlength
    cases hlength
  have hiff := readsExactly_iff (oneFile_readable .text (List.replicate 8192 65)) hrest (show 1 ≤ 5000 by decide)
    (by decide)
  intro h
  have hfits := hiff.mp h
  rw [hlength] at hfits
  revert hfits
  decide

end FileHandles
end LambdaMoo
