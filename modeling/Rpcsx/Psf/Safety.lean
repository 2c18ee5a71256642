import Rpcsx.Psf

namespace Rpcsx.Psf

open Rpcsx.Data Rpcsx.Data.Bytes

namespace DefTable

-- The formats that `load` reads a value for.
def Recognised (t : DefTable) : Prop :=
  (t.paramFmt = Format.integer.code ∧ t.paramMax = 4 ∧ t.paramLen = 4) ∨
    t.paramFmt = Format.string.code ∨ t.paramFmt = Format.array.code

-- The sizes that the constructor of `psf::entry` refuses.
def Undersized (t : DefTable) : Prop :=
  (t.paramFmt = Format.string.code ∧ t.paramMax ≤ 1) ∨
    (t.paramFmt = Format.array.code ∧ t.paramMax = 0)

end DefTable

section Checks

variable (file : List Byte)

def fileKey (t : DefTable) : List Byte := cString ((fileKeys file).drop t.keyOff)

-- The checks of the loop body, with the entries that come before in the index table.
structure EntryOk (earlier : List DefTable) (t : DefTable) : Prop where
  key_in : t.keyOff < (fileHeader file).offDataTable - (fileHeader file).offKeyTable
  key_new : ∀ e ∈ earlier, e.Recognised → fileKey file e ≠ fileKey file t
  len_le : t.paramLen ≤ t.paramMax
  data_in : t.dataOff < file.length - (fileHeader file).offDataTable
  max_in : t.paramMax < file.length - t.dataOff
  readable : t.Recognised →
    ((fileHeader file).offDataTable + t.dataOff) % 2 ^ 32 + t.paramLen ≤ file.length ∨ t.paramLen = 0

-- Walking the index table, the entries pass their checks up to one that is undersized.
def ReachesUndersizedFrom (earlier : List DefTable) : List DefTable → Prop
  | [] => False
  | t :: rest =>
      EntryOk file earlier t ∧ (t.Undersized ∨ ReachesUndersizedFrom (earlier ++ [t]) rest)

def ReachesUndersized : Prop :=
  HeaderOk file (fileHeader file) ∧ ReachesUndersizedFrom file [] (fileIndices file)

end Checks

theorem check_bind {α : Type} {condition : Prop} [Decidable condition] {errc : Error}
    {next : Except Stop α} :
    (check condition errc >>= fun _ => next) =
      if condition then next else .error (.error errc) := by
  unfold check
  split <;> rfl

theorem ofCode_eq_string {code : Nat} : Format.ofCode code = some .string ↔
    code = Format.string.code := by
  unfold Format.ofCode Format.code
  split
  · simp_all
  · split
    · simp_all
    · split <;> simp_all

theorem ofCode_eq_array {code : Nat} : Format.ofCode code = some .array ↔
    code = Format.array.code := by
  unfold Format.ofCode Format.code
  split
  · simp_all
  · split
    · simp_all
    · split <;> simp_all

-- The value of an entry: unreadable ones are reported, undersized ones are refused by the
-- constructor, and nothing else stops.
theorem loadValue_spec (stream : FileStream) (t : DefTable) (hmax : t.paramMax < 2 ^ 32) :
    (¬t.Recognised → loadValue stream t = .ok none) ∧
    (t.Recognised → ¬(stream.pos + t.paramLen ≤ stream.size ∨ t.paramLen = 0) →
      loadValue stream t = .error (.error .corrupt)) ∧
    (t.Recognised → (stream.pos + t.paramLen ≤ stream.size ∨ t.paramLen = 0) →
      (t.Undersized → loadValue stream t = .error (.fault .ensure)) ∧
      (¬t.Undersized → ∃ entry, loadValue stream t = .ok (some entry))) := by
  have hmod : t.paramMax % 2 ^ 32 = t.paramMax := Nat.mod_eq_of_lt hmax
  have hvector : stream.readVector t.paramLen 1 = stream.readPod t.paramLen := by
    rw [FileStream.readVector_eq _ _ Nat.one_pos, Nat.one_mul]
  by_cases hint : t.paramFmt = Format.integer.code ∧ t.paramMax = 4 ∧ t.paramLen = 4
  · have hrec : t.Recognised := .inl hint
    have hun : ¬t.Undersized := by
      obtain ⟨hf, hm, -⟩ := hint
      rintro (⟨hs, -⟩ | ⟨hs, -⟩)
      · rw [hf] at hs
        cases hs
      · rw [hf] at hs
        cases hs
    refine ⟨fun h => absurd hrec h, fun _ hun => ?_, fun _ hread => ⟨fun h => absurd h hun, fun _ => ?_⟩⟩
    · rw [hint.2.2] at hun
      simp only [loadValue, if_pos hint, FileStream.readPod_eq, if_neg hun, checkRead, bind,
        Except.bind]
    · rw [hint.2.2] at hread
      simp only [loadValue, if_pos hint, FileStream.readPod_eq, if_pos hread, checkRead, bind,
        Except.bind]
      exact ⟨_, rfl⟩
  · by_cases hstr : t.paramFmt = Format.string.code
    · have hrec : t.Recognised := .inr (.inl hstr)
      have hof := ofCode_eq_string.mpr hstr
      have hload : loadValue stream t = (do
          let read ← checkRead (stream.readPod t.paramLen) .corrupt
          return some (← ensured (Entry.make .string t.paramMax (cString read.1)))) := by
        simp only [loadValue, if_neg hint, hof, hvector]
      refine ⟨fun h => absurd hrec h, fun _ hun => ?_, fun _ hread => ⟨fun h => ?_, fun h => ?_⟩⟩
      · simp only [hload, FileStream.readPod_eq, if_neg hun, checkRead, bind, Except.bind]
      · have hle : ¬1 < t.paramMax % 2 ^ 32 := by
          rw [hmod]
          rcases h with ⟨-, hm⟩ | ⟨ha, -⟩
          · omega
          · rw [hstr] at ha
            cases ha
        simp only [hload, FileStream.readPod_eq, if_pos hread, checkRead, bind, Except.bind,
          Entry.make, dif_neg hle, ensured]
      · have hlt : 1 < t.paramMax % 2 ^ 32 := by
          rw [hmod]
          by_contra hle
          exact h (.inl ⟨hstr, by omega⟩)
        simp only [hload, FileStream.readPod_eq, if_pos hread, checkRead, bind, Except.bind,
          Entry.make, dif_pos hlt, ensured]
        exact ⟨_, rfl⟩
    · by_cases harr : t.paramFmt = Format.array.code
      · have hrec : t.Recognised := .inr (.inr harr)
        have hof := ofCode_eq_array.mpr harr
        have hload : loadValue stream t = (do
            let read ← checkRead (stream.readPod t.paramLen) .corrupt
            return some (← ensured (Entry.make .array t.paramMax read.1))) := by
          simp only [loadValue, if_neg hint, hof, hvector]
        refine ⟨fun h => absurd hrec h, fun _ hun => ?_, fun _ hread => ⟨fun h => ?_, fun h => ?_⟩⟩
        · simp only [hload, FileStream.readPod_eq, if_neg hun, checkRead, bind, Except.bind]
        · have hle : ¬0 < t.paramMax % 2 ^ 32 := by
            rw [hmod]
            rcases h with ⟨hs, -⟩ | ⟨-, hm⟩
            · exact absurd hs hstr
            · omega
          simp only [hload, FileStream.readPod_eq, if_pos hread, checkRead, bind, Except.bind,
            Entry.make, dif_neg hle, ensured]
        · have hlt : 0 < t.paramMax % 2 ^ 32 := by
            rw [hmod]
            by_contra hle
            exact h (.inr ⟨harr, by omega⟩)
          simp only [hload, FileStream.readPod_eq, if_pos hread, checkRead, bind, Except.bind,
            Entry.make, dif_pos hlt, ensured]
          exact ⟨_, rfl⟩
      · have hrec : ¬t.Recognised := by
          rintro (h | h | h)
          · exact hint h
          · exact hstr h
          · exact harr h
        refine ⟨fun _ => ?_, fun h => absurd h hrec, fun h => absurd h hrec⟩
        have hs : Format.ofCode t.paramFmt ≠ some .string := fun h => hstr (ofCode_eq_string.mp h)
        have ha : Format.ofCode t.paramFmt ≠ some .array := fun h => harr (ofCode_eq_array.mp h)
        simp only [loadValue, if_neg hint]
        rfl

section Loop

variable {file : List Byte} (hh : HeaderOk file (fileHeader file))

-- The registry holds the keys of the recognised entries so far.
def Holds (file : List Byte) (earlier : List DefTable) (sfo : Registry) : Prop :=
  ∀ key, sfo.find? key = none ↔ ∀ e ∈ earlier, e.Recognised → fileKey file e ≠ key

theorem Holds.insert {earlier : List DefTable} {sfo : Registry} (h : Holds file earlier sfo)
    {t : DefTable} (ht : t.Recognised) (entry : Entry) :
    Holds file (earlier ++ [t]) (sfo.emplace (fileKey file t) entry).1 := by
  intro key
  by_cases hk : key = fileKey file t
  · subst hk
    rw [OrderedMap.find?_emplace_self]
    simp only [reduceCtorEq, false_iff, not_forall]
    exact ⟨t, by simp, ht, fun hne => hne rfl⟩
  · rw [OrderedMap.find?_emplace_ne _ _ hk, h key]
    constructor
    · intro hall e he
      rcases List.mem_append.mp he with he | he
      · exact hall e he
      · rw [List.mem_singleton.mp he]
        exact fun _ => Ne.symm hk
    · intro hall e he
      exact hall e (by simp [he])

theorem Holds.skip {earlier : List DefTable} {sfo : Registry} (h : Holds file earlier sfo)
    {t : DefTable} (ht : ¬t.Recognised) : Holds file (earlier ++ [t]) sfo := by
  intro key
  rw [h key]
  constructor
  · intro hall e he
    rcases List.mem_append.mp he with he | he
    · exact hall e he
    · rw [List.mem_singleton.mp he]
      exact fun hr => absurd hr ht
  · intro hall e he
    exact hall e (by simp [he])

include hh

-- The loop body with its checks in a row.
theorem loadEntry_eq {stream : FileStream} (hobj : stream.obj = file) (sfo : Registry)
    (t : DefTable) :
    loadEntry stream (fileHeader file) (fileKeys file) sfo t =
      if t.keyOff < (fileHeader file).offDataTable - (fileHeader file).offKeyTable then
        if sfo.find? (fileKey file t) = none then
          if t.paramLen ≤ t.paramMax then
            if t.dataOff < file.length - (fileHeader file).offDataTable then
              if t.paramMax < file.length - t.dataOff then
                loadValue ⟨file, ((fileHeader file).offDataTable + t.dataOff) % 2 ^ 32⟩ t >>=
                  fun
                    | some entry => .ok (sfo.emplace (fileKey file t) entry).1
                    | none => .ok sfo
              else .error (.error .corrupt)
            else .error (.error .corrupt)
          else .error (.error .corrupt)
        else .error (.error .corrupt)
      else .error (.error .corrupt) := by
  have hsize : stream.size = file.length := by rw [FileStream.size, hobj]
  have hkeys : (fileKeys file).length =
      (fileHeader file).offDataTable - (fileHeader file).offKeyTable := by
    rw [fileKeys, length_slice]
    have := hh.data_in
    omega
  by_cases hk : t.keyOff < (fileHeader file).offDataTable - (fileHeader file).offKeyTable
  · have hat : keyAt (fileKeys file) t.keyOff = .ok (fileKey file t) := by
      rw [keyAt, if_pos (by omega), fileKey]
    simp only [loadEntry, check_bind, hat, ensured, if_pos hk, hsize, FileStream.seek, hobj]
    rfl
  · simp only [loadEntry, check_bind, if_neg hk]

-- One round of the loop: an entry that fails a check is reported, an undersized one ends the
-- process, any other is loaded.
theorem loadEntry_cases {stream : FileStream} (hobj : stream.obj = file) {earlier : List DefTable}
    {sfo : Registry} (hsfo : Holds file earlier sfo) {t : DefTable} (hmax : t.paramMax < 2 ^ 32) :
    (¬EntryOk file earlier t →
      ∃ errc, loadEntry stream (fileHeader file) (fileKeys file) sfo t = .error (.error errc)) ∧
    (EntryOk file earlier t →
      (t.Undersized →
        loadEntry stream (fileHeader file) (fileKeys file) sfo t = .error (.fault .ensure)) ∧
      (¬t.Undersized →
        ∃ sfo', loadEntry stream (fileHeader file) (fileKeys file) sfo t = .ok sfo' ∧
          Holds file (earlier ++ [t]) sfo')) := by
  have hvalue := loadValue_spec
    (stream.seek (((fileHeader file).offDataTable + t.dataOff) % 2 ^ 32)) t hmax
  simp only [FileStream.seek, FileStream.size, hobj] at hvalue
  obtain ⟨hskip, hunread, hread⟩ := hvalue
  have hload := loadEntry_eq hh hobj sfo t
  constructor
  · intro hbad
    rw [hload]
    split_ifs with h₁ h₂ h₃ h₄ h₅
    · by_cases hrec : t.Recognised
      · rw [hunread hrec]
        · exact ⟨_, rfl⟩
        · intro hr
          exact hbad ⟨h₁, fun e he hre => (hsfo _).mp h₂ e he hre, h₃, h₄, h₅, fun _ => hr⟩
      · exact absurd ⟨h₁, fun e he hre => (hsfo _).mp h₂ e he hre, h₃, h₄, h₅,
          fun hr => absurd hr hrec⟩ hbad
    all_goals exact ⟨_, rfl⟩
  · rintro ⟨h₁, h₂, h₃, h₄, h₅, h₆⟩
    have hnew := (hsfo (fileKey file t)).mpr h₂
    rw [hload, if_pos h₁, if_pos hnew, if_pos h₃, if_pos h₄, if_pos h₅]
    by_cases hrec : t.Recognised
    · obtain ⟨hun, hok⟩ := hread hrec (h₆ hrec)
      constructor
      · intro hu
        rw [hun hu]
        rfl
      · intro hu
        obtain ⟨entry, he⟩ := hok hu
        rw [he]
        exact ⟨_, rfl, hsfo.insert hrec entry⟩
    · have hu : ¬t.Undersized := by
        rintro (⟨hs, -⟩ | ⟨ha, -⟩)
        · exact hrec (.inr (.inl hs))
        · exact hrec (.inr (.inr ha))
      refine ⟨fun h => absurd h hu, fun _ => ?_⟩
      rw [hskip hrec]
      exact ⟨sfo, rfl, hsfo.skip hrec⟩

-- The whole loop stops the process exactly when it comes to an undersized entry.
theorem loadEntries_fault {stream : FileStream} (hobj : stream.obj = file)
    {earlier : List DefTable} {sfo : Registry} (hsfo : Holds file earlier sfo)
    (indices : List DefTable) (hmax : ∀ t ∈ indices, t.paramMax < 2 ^ 32) :
    (ReachesUndersizedFrom file earlier indices →
      indices.foldlM (loadEntry stream (fileHeader file) (fileKeys file)) sfo =
        .error (.fault .ensure)) ∧
    (¬ReachesUndersizedFrom file earlier indices → ∀ fault,
      indices.foldlM (loadEntry stream (fileHeader file) (fileKeys file)) sfo ≠
        .error (.fault fault)) := by
  induction indices generalizing earlier sfo with
  | nil => exact ⟨False.elim, fun _ fault h => by cases h⟩
  | cons t rest ih =>
      obtain ⟨hbad, hok⟩ := loadEntry_cases hh hobj hsfo (hmax t (by simp))
      rw [List.foldlM_cons]
      by_cases he : EntryOk file earlier t
      · by_cases hu : t.Undersized
        · rw [(hok he).1 hu]
          exact ⟨fun _ => rfl, fun hn => absurd ⟨he, .inl hu⟩ hn⟩
        · obtain ⟨sfo', hload, hsfo'⟩ := (hok he).2 hu
          rw [hload]
          obtain ⟨h₁, h₂⟩ := ih hsfo' (fun t ht => hmax t (by simp [ht]))
          constructor
          · rintro ⟨-, hu' | hr⟩
            · exact absurd hu' hu
            · exact h₁ hr
          · intro hn
            exact h₂ fun hr => hn ⟨he, .inr hr⟩
      · obtain ⟨errc, herr⟩ := hbad he
        rw [herr]
        exact ⟨fun hr => absurd hr.1 he, fun _ fault h => by cases h⟩

end Loop

theorem DefTable.decode_paramMax_lt (raw : List Byte) : (decode raw).paramMax < 2 ^ 32 := by
  have hlt := leValue_lt (slice raw 8 4)
  have hlen : (slice raw 8 4).length ≤ 4 := by
    rw [length_slice]
    omega
  calc (decode raw).paramMax < 256 ^ (slice raw 8 4).length := hlt
    _ ≤ 256 ^ 4 := Nat.pow_le_pow_right (by decide) hlen
    _ = 2 ^ 32 := by decide

theorem DefTable.decodeAll_paramMax_lt (count : Nat) (raw : List Byte) :
    ∀ t ∈ decodeAll count raw, t.paramMax < 2 ^ 32 := by
  induction count generalizing raw with
  | zero => simp [decodeAll]
  | succ count ih =>
      intro t ht
      rcases List.mem_cons.mp ht with rfl | ht
      · exact decode_paramMax_lt raw
      · exact ih _ t ht

-- A header or a table that does not fit the file is reported.
theorem loadRegistry_bad_header {file : List Byte} (h : ¬HeaderOk file (fileHeader file))
    (pos : Nat) : ∃ errc, loadRegistry ⟨file, pos⟩ = .error (.error errc) := by
  by_cases h₁ : Header.sizeOf ≤ file.length
  · have hread : FileStream.readPod ⟨file, 0⟩ Header.sizeOf =
        some (slice file 0 Header.sizeOf, ⟨file, Header.sizeOf⟩) := by
      rw [FileStream.readPod_eq, if_pos (.inl (by simpa [FileStream.size] using h₁))]
      simp
    have hseek : FileStream.seek ⟨file, pos⟩ 0 = ⟨file, 0⟩ := rfl
    have hchecks : loadRegistry ⟨file, pos⟩ =
        if (fileHeader file).magic = magic then
          if (fileHeader file).version = 0x101 then
            if Header.sizeOf ≤ (fileHeader file).offKeyTable then
              if (fileHeader file).offKeyTable ≤ (fileHeader file).offDataTable then
                if (fileHeader file).offDataTable ≤ file.length then
                  loadTables ⟨file, Header.sizeOf⟩ (fileHeader file)
                else .error (.error .corrupt)
              else .error (.error .corrupt)
            else .error (.error .corrupt)
          else .error (.error .notPsf)
        else .error (.error .notPsf) := by
      rw [loadRegistry, hseek, hread]
      simp only [checkRead, check_bind]
      rfl
    rw [hchecks]
    split_ifs with h₂ h₃ h₄ h₅ h₆
    · have h₇ : ¬(Header.sizeOf + DefTable.sizeOf * (fileHeader file).entriesNum ≤
          file.length ∨ DefTable.sizeOf * (fileHeader file).entriesNum = 0) := by
        rintro (hle | hz)
        · exact h ⟨h₁, h₂, h₃, h₄, h₅, h₆, hle⟩
        · exact h ⟨h₁, h₂, h₃, h₄, h₅, h₆, by omega⟩
      have hnone : FileStream.readVector ⟨file, Header.sizeOf⟩ (fileHeader file).entriesNum
          DefTable.sizeOf = none := by
        rw [FileStream.readVector_eq _ _ (by decide), FileStream.readPod_eq, FileStream.size,
          if_neg h₇]
      rw [loadTables, hnone]
      exact ⟨_, rfl⟩
    all_goals exact ⟨_, rfl⟩
  · have hread : FileStream.readPod ⟨file, 0⟩ Header.sizeOf = none := by
      rw [FileStream.readPod_eq, if_neg]
      simp only [FileStream.size, Header.sizeOf] at h₁ ⊢
      omega
    have hseek : FileStream.seek ⟨file, pos⟩ 0 = ⟨file, 0⟩ := rfl
    unfold loadRegistry
    rw [hseek, hread]
    exact ⟨_, rfl⟩

-- Loading never leaves the file and returns, unless it comes to an undersized entry.
theorem load_returns_iff (file : List Byte) :
    load (.ofBytes file) ≠ .error .outOfBounds ∧
      ((∃ result, load (.ofBytes file) = .ok result) ↔ ¬ReachesUndersized file) := by
  have hnone {file : List Byte} (h : ∀ fault, loadRegistry (.ofBytes file) ≠ .error (.fault fault)) :
      ∃ result, load (.ofBytes file) = .ok result := by
    unfold load
    cases hl : loadRegistry (.ofBytes file) with
    | ok sfo => exact ⟨_, rfl⟩
    | error stop =>
        cases stop with
        | error errc => exact ⟨_, rfl⟩
        | fault fault => exact absurd hl (h fault)
  by_cases hh : HeaderOk file (fileHeader file)
  · obtain ⟨stream, hobj, hload⟩ := loadRegistry_eq hh 0
    have hempty : Holds file [] OrderedMap.empty := by
      intro key
      simp [OrderedMap.find?, OrderedMap.empty]
    obtain ⟨hreach, hnot⟩ := loadEntries_fault hh hobj hempty (fileIndices file)
      (DefTable.decodeAll_paramMax_lt _ _)
    by_cases hr : ReachesUndersizedFrom file [] (fileIndices file)
    · have hfault : load (.ofBytes file) = .error .ensure := by
        unfold load
        rw [FileStream.ofBytes, hload, hreach hr]
        rfl
      rw [hfault]
      refine ⟨by simp, ?_⟩
      simp [ReachesUndersized, hh, hr]
    · have hok : ∃ result, load (.ofBytes file) = .ok result := by
        apply hnone
        intro fault hf
        rw [FileStream.ofBytes, hload] at hf
        cases hl : (fileIndices file).foldlM
            (loadEntry stream (fileHeader file) (fileKeys file)) OrderedMap.empty with
        | error stop =>
            rw [hl] at hf
            obtain rfl : stop = .fault fault := by simpa [bind, Except.bind] using hf
            exact hnot hr fault hl
        | ok sfo =>
            rw [hl] at hf
            change (check _ _ >>= fun _ => pure sfo) = _ at hf
            rw [check_bind] at hf
            split at hf <;> cases hf
      refine ⟨?_, fun _ hbad => hr hbad.2, fun _ => hok⟩
      obtain ⟨result, hresult⟩ := hok
      rw [hresult]
      simp
  · have hok : ∃ result, load (.ofBytes file) = .ok result := by
      apply hnone
      intro fault hf
      obtain ⟨errc, herr⟩ := loadRegistry_bad_header hh 0
      rw [FileStream.ofBytes, herr] at hf
      cases hf
    refine ⟨?_, fun _ hbad => hh hbad.1, fun _ => hok⟩
    obtain ⟨result, hresult⟩ := hok
    rw [hresult]
    simp

-- A file with one string entry of maximal size 1.
theorem load_one_byte_string :
    ¬∃ result, load (.ofBytes ((Header.mk magic 0x101 36 40 1).encode ++
      (DefTable.mk 0 Format.string.code 1 1 0).encode ++ (ascii "KEY" ++ [0]) ++ [0, 0])) =
        .ok result := by
  have hfault : load (.ofBytes ((Header.mk magic 0x101 36 40 1).encode ++
      (DefTable.mk 0 Format.string.code 1 1 0).encode ++ (ascii "KEY" ++ [0]) ++ [0, 0])) =
        .error .ensure := rfl
  rw [hfault]
  simp

end Rpcsx.Psf
