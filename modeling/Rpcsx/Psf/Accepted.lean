import Rpcsx.Psf.Safety

namespace Rpcsx.Psf

open Rpcsx.Data Rpcsx.Data.Bytes

-- The bytes of the value of an entry, as long as its length says.
def fileValue (file : List Byte) (t : DefTable) : List Byte :=
  slice file ((fileHeader file).offDataTable + t.dataOff) t.paramLen

-- The checks of the loop body that do not depend on the other entries.
structure InRange (file : List Byte) (t : DefTable) : Prop where
  key_in : t.keyOff < (fileHeader file).offDataTable - (fileHeader file).offKeyTable
  len_le : t.paramLen ≤ t.paramMax
  data_in : t.dataOff < file.length - (fileHeader file).offDataTable
  max_in : t.paramMax < file.length - t.dataOff

-- The string entries of the registry come from the index table.
def FromFile (file : List Byte) (sfo : Registry) : Prop :=
  ∀ key maxSize value hmin hmax, sfo.find? key = some (.string maxSize value hmin hmax) →
    ∃ t ∈ fileIndices file, fileKey file t = key ∧ value = cString (fileValue file t)

theorem bind_eq_ok {ε α β : Type} {x : Except ε α} {f : α → Except ε β} {b : β} :
    (x >>= f) = .ok b ↔ ∃ a, x = .ok a ∧ f a = .ok b := by
  cases x with
  | error e => simp [bind, Except.bind]
  | ok a => simp [bind, Except.bind]

theorem loadValue_string {file : List Byte} {pos : Nat} {t : DefTable} {maxSize : Nat}
    {value : List Byte} {hmin : 1 < maxSize} {hmax : maxSize < 2 ^ 32}
    (h : loadValue ⟨file, pos⟩ t = .ok (some (.string maxSize value hmin hmax))) :
    value = cString (slice file pos t.paramLen) := by
  have hvector : FileStream.readVector ⟨file, pos⟩ t.paramLen 1 =
      FileStream.readPod ⟨file, pos⟩ t.paramLen := by
    rw [FileStream.readVector_eq _ _ Nat.one_pos, Nat.one_mul]
  unfold loadValue at h
  rw [hvector] at h
  split at h
  · obtain ⟨_, -, h⟩ := bind_eq_ok.mp h
    cases h
  · split at h
    · obtain ⟨⟨raw, next⟩, hread, hmake⟩ := bind_eq_ok.mp h
      obtain ⟨entry, hentry, hsome⟩ := bind_eq_ok.mp hmake
      cases hsome
      rw [FileStream.readPod_eq] at hread
      split at hread
      · cases hread
        unfold Entry.make at hentry
        dsimp only at hentry
        split at hentry
        · cases hentry
          rfl
        · cases hentry
      · cases hread
    · obtain ⟨_, -, hmake⟩ := bind_eq_ok.mp h
      obtain ⟨entry, hentry, hsome⟩ := bind_eq_ok.mp hmake
      cases hsome
      unfold Entry.make at hentry
      dsimp only at hentry
      split at hentry <;> cases hentry
    · cases h

section Loop

variable {file : List Byte} (hsize : file.length < 2 ^ 31) (hh : HeaderOk file (fileHeader file))
  {stream : FileStream} (hobj : stream.obj = file)

include hsize hh hobj

-- A round of the loop that goes on.
theorem loadEntry_ok {sfo sfo' : Registry} (hsfo : FromFile file sfo) {t : DefTable}
    (ht : t ∈ fileIndices file)
    (h : loadEntry stream (fileHeader file) (fileKeys file) sfo t = .ok sfo') :
    InRange file t ∧ FromFile file sfo' := by
  rw [loadEntry_eq hh hobj] at h
  split_ifs at h with h₁ h₂ h₃ h₄ h₅
  refine ⟨⟨h₁, h₃, h₄, h₅⟩, ?_⟩
  have hpos : ((fileHeader file).offDataTable + t.dataOff) % 2 ^ 32 =
      (fileHeader file).offDataTable + t.dataOff := Nat.mod_eq_of_lt (by omega)
  rw [hpos] at h
  obtain ⟨loaded, hvalue, h⟩ := bind_eq_ok.mp h
  cases loaded with
  | none =>
      cases h
      exact hsfo
  | some entry =>
      cases h
      intro key maxSize value hmin hmax hfind
      by_cases hkey : key = fileKey file t
      · subst hkey
        rw [OrderedMap.find?_emplace_self, h₂] at hfind
        cases hfind
        exact ⟨t, ht, rfl, loadValue_string hvalue⟩
      · rw [OrderedMap.find?_emplace_ne _ _ hkey] at hfind
        exact hsfo key maxSize value hmin hmax hfind

theorem loadEntries_ok {sfo sfo' : Registry} (hsfo : FromFile file sfo) {indices : List DefTable}
    (hsub : ∀ t ∈ indices, t ∈ fileIndices file)
    (h : indices.foldlM (loadEntry stream (fileHeader file) (fileKeys file)) sfo = .ok sfo') :
    (∀ t ∈ indices, InRange file t) ∧ FromFile file sfo' := by
  induction indices generalizing sfo with
  | nil =>
      cases h
      exact ⟨by simp, hsfo⟩
  | cons t rest ih =>
      rw [List.foldlM_cons] at h
      obtain ⟨next, hstep, hrest⟩ := bind_eq_ok.mp h
      obtain ⟨hrange, hnext⟩ := loadEntry_ok hsize hh hobj hsfo (hsub t List.mem_cons_self) hstep
      obtain ⟨hranges, hlast⟩ := ih hnext (fun t ht => hsub t (List.mem_cons_of_mem _ ht)) hrest
      exact ⟨List.forall_mem_cons.mpr ⟨hrange, hranges⟩, hlast⟩

end Loop

-- What holds of a file that is accepted.
structure Accepted (file : List Byte) (sfo : Registry) : Prop where
  header : HeaderOk file (fileHeader file)
  ranges : ∀ t ∈ fileIndices file, InRange file t
  strings : FromFile file sfo

theorem accepted_of_load {file : List Byte} {sfo : Registry} (hsize : file.length < 2 ^ 31)
    (h : load (.ofBytes file) = .ok (sfo, .ok)) (hne : sfo ≠ OrderedMap.empty) :
    Accepted file sfo := by
  have hreg : loadRegistry (.ofBytes file) = .ok sfo := by
    unfold load at h
    split at h
    · rename_i hreg
      cases h
      exact hreg
    · cases h
      exact absurd rfl hne
    · cases h
  by_cases hh : HeaderOk file (fileHeader file)
  · obtain ⟨stream, hobj, hload⟩ := loadRegistry_eq hh 0
    rw [FileStream.ofBytes, hload] at hreg
    obtain ⟨loaded, hloop, hreg⟩ := bind_eq_ok.mp hreg
    change (check _ _ >>= fun _ => pure loaded) = _ at hreg
    rw [check_bind] at hreg
    split at hreg
    · cases hreg
      have hempty : FromFile file OrderedMap.empty := by
        intro key maxSize value hmin hmax hfind
        cases hfind
      obtain ⟨hranges, hstrings⟩ := loadEntries_ok hsize hh hobj hempty (fun t ht => ht) hloop
      exact ⟨hh, hranges, hstrings⟩
    · cases hreg
  · obtain ⟨errc, herr⟩ := loadRegistry_bad_header hh 0
    rw [FileStream.ofBytes, herr] at hreg
    cases hreg

end Rpcsx.Psf
