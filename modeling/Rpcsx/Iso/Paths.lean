import Rpcsx.Iso.Lookup

namespace Rpcsx.Iso

open Data Data.Bytes

-- The components of a path, one separator between two of them.
def joinPath (parts : List (List Byte)) : List Byte := [47].intercalate parts

-- A path behind its first component.
def pathRest (parts : List (List Byte)) : List Byte := parts.flatMap (47 :: ·)

theorem joinPath_cons (part : List Byte) (rest : List (List Byte)) :
    joinPath (part :: rest) = part ++ pathRest rest := by
  unfold joinPath
  induction rest generalizing part with
  | nil => simp [pathRest]
  | cons next rest ih =>
      rw [List.intercalate_cons_cons, ih]
      simp [pathRest]

-- open_entry, one component at a time.
def openParts (device : Device) : Entry → List (List Byte) → Option (Option Entry)
  | item, [] => some (some item)
  | item, part :: rest =>
      if item.isDirectory = false then some none
      else
        match readDir device.encoding device.image item with
        | none => none
        | some items =>
            match items.find? fun entry => isStringEqNoCase entry.1 part with
            | none => some none
            | some entry => openParts device entry.2 rest

theorem openPath_separator (device : Device) (item : Entry) (path : List Byte) :
    openPath device item (47 :: path) = openPath device item path := by
  rw [openPath, if_neg (by simp)]
  have hname : (47 :: path).takeWhile (fun b => !isSeparator b) = [] := by
    rw [List.takeWhile_cons, if_neg (by decide)]
  simp only [hname, if_true, List.tail_cons]

theorem takeWhile_part {part : List Byte} (hp : PartOk part) (rest : List (List Byte)) :
    (part ++ pathRest rest).takeWhile (fun b => !isSeparator b) = part ∧
      (part ++ pathRest rest).dropWhile (fun b => !isSeparator b) = pathRest rest := by
  have hall : ∀ b ∈ part, (!isSeparator b) = true := by
    intro b hb
    simp [hp.no_separator b hb]
  rw [List.takeWhile_append_of_pos hall, List.dropWhile_append_of_pos hall]
  cases rest with
  | nil => simp [pathRest]
  | cons next rest =>
      have hsep : (!isSeparator (47 : Byte)) = false := by decide
      simp [pathRest, hsep]

theorem openPath_join (device : Device) (item : Entry) (parts : List (List Byte))
    (hp : ∀ part ∈ parts, PartOk part) :
    openPath device item (pathRest parts) = openParts device item parts ∧
      openPath device item (joinPath parts) = openParts device item parts := by
  induction parts generalizing item with
  | nil =>
      constructor
      · rw [pathRest, List.flatMap_nil, openPath, if_pos rfl, openParts]
      · rw [joinPath, List.intercalate_nil, openPath, if_pos rfl, openParts]
  | cons part rest ih =>
      have hpart := hp part (by simp)
      have hne : part ++ pathRest rest ≠ [] := by simp [hpart.ne_nil]
      have hstep : openPath device item (part ++ pathRest rest) =
          openParts device item (part :: rest) := by
        obtain ⟨htake, hdrop⟩ := takeWhile_part hpart rest
        rw [openPath, if_neg hne]
        simp only [htake, hdrop, hpart.ne_nil, if_false, openParts]
        simp only [(ih _ fun p h => hp p (by simp [h])).1] <;> rfl
      have hrest : pathRest (part :: rest) = 47 :: (part ++ pathRest rest) := by simp [pathRest]
      rw [hrest, openPath_separator, joinPath_cons]
      exact ⟨hstep, hstep⟩

theorem openEntry_join (device : Device) (parts : List (List Byte))
    (hp : ∀ part ∈ parts, PartOk part) :
    openEntry device (joinPath parts) = openParts device { extents := [device.root] } parts := by
  cases parts with
  | nil => rfl
  | cons part rest =>
      have hpart := hp part (by simp)
      obtain ⟨b, tail, hb⟩ := List.exists_cons_of_ne_nil hpart.ne_nil
      have hsep := hpart.no_separator b (by simp [hb])
      have hjoin : joinPath (part :: rest) = b :: (tail ++ pathRest rest) := by
        rw [joinPath_cons, hb, List.cons_append]
      rw [openEntry, if_neg, (openPath_join device _ _ hp).2]
      rw [hjoin]
      rintro (h | h | h)
      · rw [show ascii "/" = [47] by decide, List.cons.injEq] at h
        rw [h.1] at hsep
        exact absurd hsep (by decide)
      · rw [show ascii "\\" = [92] by decide, List.cons.injEq] at h
        rw [h.1] at hsep
        exact absurd hsep (by decide)
      · exact List.cons_ne_nil _ _ h

namespace MetadataReader

theorem head_joinPath {part : List Byte} (hp : PartOk part) (rest : List (List Byte)) :
    ∃ b tail, joinPath (part :: rest) = b :: tail ∧ b ≠ 47 := by
  obtain ⟨b, tail, hb⟩ := List.exists_cons_of_ne_nil hp.ne_nil
  refine ⟨b, tail ++ pathRest rest, ?_, ?_⟩
  · rw [joinPath_cons, hb, List.cons_append]
  · intro h
    have hsep := hp.no_separator b (by simp [hb])
    rw [h] at hsep
    exact absurd hsep (by decide)

theorem getLast?_joinPath (parts : List (List Byte)) (hp : ∀ part ∈ parts, PartOk part) :
    (joinPath parts).getLast? ≠ some 47 := by
  induction parts with
  | nil => decide
  | cons part rest ih =>
      cases rest with
      | nil =>
          intro h
          rw [joinPath, List.intercalate_singleton] at h
          have hsep := (hp part (by simp)).no_separator 47 (List.mem_of_getLast? h)
          exact absurd hsep (by decide)
      | cons next rest =>
          obtain ⟨b, tail, hb, -⟩ := head_joinPath (hp next (by simp)) rest
          have ih' := ih fun p h => hp p (by simp [h])
          have hjoin : joinPath (part :: next :: rest) = part ++ 47 :: joinPath (next :: rest) := by
            rw [joinPath, List.intercalate_cons_cons]
            simp [joinPath]
          rw [hjoin, List.getLast?_append_of_ne_nil _ (by simp), List.getLast?_cons]
          rw [hb] at ih' ⊢
          rw [List.getLast?_cons] at ih' ⊢
          simpa using ih'

theorem trim_joinPath (parts : List (List Byte)) (hp : ∀ part ∈ parts, PartOk part) :
    Text.trim (· = '/') (Text.decodeAscii (joinPath parts)) =
      Text.decodeAscii (joinPath parts) := by
  have hstart : Text.trimStart (· = '/') (Text.decodeAscii (joinPath parts)) =
      Text.decodeAscii (joinPath parts) := by
    cases parts with
    | nil => rfl
    | cons part rest =>
        obtain ⟨b, tail, hb, hne⟩ := head_joinPath (hp part (by simp)) rest
        rw [Text.trimStart, hb, decodeAscii_eq, List.map_cons, List.dropWhile_cons, if_neg]
        simpa [asciiChar_slash] using hne
  rw [Text.trim, hstart, Text.trimEnd, List.rdropWhile_eq_self_iff]
  intro hne
  have hjoin : joinPath parts ≠ [] := by
    intro h
    rw [h] at hne
    exact hne rfl
  have hlast := getLast?_joinPath parts hp
  rw [List.getLast?_eq_some_getLast hjoin] at hlast
  have hmap : (Text.decodeAscii (joinPath parts)).getLast hne =
      asciiChar ((joinPath parts).getLast hjoin) := List.getLast_map hne
  rw [hmap]
  simpa [asciiChar_slash] using hlast

theorem decodeAscii_joinPath (parts : List (List Byte)) :
    Text.decodeAscii (joinPath parts) = ['/'].intercalate (parts.map Text.decodeAscii) := by
  unfold joinPath
  induction parts with
  | nil => rfl
  | cons part rest ih =>
      cases rest with
      | nil => simp
      | cons next rest =>
          rw [List.intercalate_cons_cons, List.map_cons, List.map_cons,
            List.intercalate_cons_cons, ← List.map_cons, ← ih]
          simp only [decodeAscii_eq, List.map_append]
          rfl

theorem pathParts_joinPath (parts : List (List Byte)) (hp : ∀ part ∈ parts, PartOk part) :
    pathParts (Text.decodeAscii (joinPath parts)) = parts.map Text.decodeAscii := by
  rw [pathParts, trim_joinPath parts hp, decodeAscii_joinPath]
  cases parts with
  | nil => decide
  | cons part rest =>
      rw [List.splitOn_intercalate]
      · rw [List.filter_eq_self]
        intro text htext
        obtain ⟨p, hmem, rfl⟩ := List.mem_map.mp htext
        simp [(hp p hmem).not_blank]
      · intro text htext hslash
        obtain ⟨p, hmem, rfl⟩ := List.mem_map.mp htext
        obtain ⟨b, hb, h⟩ := List.mem_map.mp hslash
        have hsep := (hp p hmem).no_separator b hb
        rw [(asciiChar_slash b).mp h] at hsep
        exact absurd hsep (by decide)
      · simp

end MetadataReader

end Rpcsx.Iso
