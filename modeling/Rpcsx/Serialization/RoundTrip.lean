import Mathlib.Data.List.TakeWhile
import Rpcsx.Serialization

namespace Rpcsx.Serialization

-- The format: what each value is in the data.
def vle (i : Nat) : List Byte :=
  vleByte i :: if i / 2 ^ 7 ≠ 0 then vle (i / 2 ^ 7) else []
termination_by i
decreasing_by omega

mutual

def encode : Ty → Val → List Byte
  | .scalar _, v => v.bytes
  | .vector elem, v => vle v.parts.length ++ v.parts.flatMap (encode elem)
  | .container _ elem, v => vle v.parts.length ++ v.parts.flatMap (encode elem)
  | .tuple elems, v => encodeAll elems v.parts

def encodeAll : Tys → List Val → List Byte
  | .nil, _ => []
  | .cons first rest, parts => encode first (parts.headD (.items [])) ++ encodeAll rest parts.tail

end

section Writing

-- An access that appends the bytes, as long as there is room for them.
def Writes (m : Access Unit) (bytes : List Byte) : Prop :=
  ∀ data : List Byte, data.length + bytes.length < 2 ^ 64 →
    m ⟨data, data.length⟩ = some ((), ⟨data ++ bytes, data.length + bytes.length⟩)

variable {m m' : Access Unit} {bytes bytes' : List Byte}

theorem writes_pure : Writes (pure ()) [] := by
  intro data _
  rw [List.append_nil, List.length_nil, Nat.add_zero]
  rfl

theorem Writes.bind (h : Writes m bytes) (h' : Writes m' bytes') :
    Writes (do m; m') (bytes ++ bytes') := by
  intro data hlt
  rw [List.length_append] at hlt
  have hfirst := h data (by omega)
  have hsecond := h' (data ++ bytes) (by rw [List.length_append]; omega)
  rw [List.length_append] at hsecond
  change (m ⟨data, data.length⟩).bind (fun r => m' r.2) = _
  rw [hfirst, Option.bind_some, hsecond, List.append_assoc, List.length_append, Nat.add_assoc]

theorem rawWrite_writes (bytes : List Byte) : Writes (rawWrite bytes) bytes := by
  intro data hlt
  by_cases hnil : bytes = []
  · subst hnil
    rw [rawWrite, if_pos rfl, List.append_nil, List.length_nil, Nat.add_zero]
  · rw [rawWrite, if_neg hnil, if_pos (Nat.le_of_lt hlt), if_pos (Nat.le_refl _),
      if_neg (by simp), Nat.mod_eq_of_lt hlt]

theorem serializeVle_writes (i : Nat) : Writes (serializeVle i) (vle i) := by
  induction i using Nat.strongRecOn with
  | ind i ih =>
      rw [serializeVle, vle]
      by_cases hmore : i / 2 ^ 7 ≠ 0
      · rw [if_pos hmore, if_pos hmore]
        exact (rawWrite_writes [vleByte i]).bind (ih _ (by omega))
      · rw [if_neg hmore, if_neg hmore]
        exact (rawWrite_writes [vleByte i]).bind writes_pure

theorem forM_writes {α : Type} {f : α → Access Unit} {code : α → List Byte} {parts : List α}
    (h : ∀ v ∈ parts, Writes (f v) (code v)) : Writes (parts.forM f) (parts.flatMap code) := by
  induction parts with
  | nil => exact writes_pure
  | cons v parts ih =>
      rw [List.flatMap_cons]
      exact (h v List.mem_cons_self).bind (ih fun w hw => h w (List.mem_cons_of_mem _ hw))

-- The elements of a container that are pairs are written as tuples are.
theorem write_pair (key mapped : Ty) (v : Val) :
    write (.tuple (.cons key (.cons mapped .nil))) v = (do
      write key (v.parts.getD 0 (.items []))
      write mapped (v.parts.getD 1 (.items []))) := by
  rw [write, writeTuple, writeTuple, writeTuple]
  cases v.parts with
  | nil => simp
  | cons first rest =>
      cases rest with
      | nil => simp
      | cons second rest => simp

theorem write_container (kind : Kind) (elem : Ty) (v : Val) :
    write (.container kind elem) v = (do
      serializeVle v.parts.length
      v.parts.forM (write elem)) := by
  have hpair (key mapped : Ty) : (fun part : Val => do
      write key (part.parts.getD 0 (.items []))
      write mapped (part.parts.getD 1 (.items []))) =
        write (.tuple (.cons key (.cons mapped .nil))) := by
    funext part
    exact (write_pair key mapped part).symm
  cases elem with
  | scalar size => rw [write]; nofun
  | vector elem => rw [write]; nofun
  | container kind elem => rw [write]; nofun
  | tuple elems =>
      cases elems with
      | nil => rw [write]; nofun
      | cons first rest =>
          cases rest with
          | nil => rw [write]; nofun
          | cons second rest =>
              cases rest with
              | nil => rw [write, hpair]
              | cons third rest => rw [write]; nofun

theorem hasType_items {t : Ty} {v : Val} (h : HasType t v) (ht : t.bitcopy = none) :
    ∃ parts, v = .items parts := by
  cases v with
  | items parts => exact ⟨parts, rfl⟩
  | scalar bytes =>
      cases t with
      | scalar size => cases ht
      | vector elem => simp [HasType] at h
      | container kind elem => simp [HasType] at h
      | tuple elems => simp [HasType] at h

mutual

theorem write_writes : ∀ (t : Ty) (v : Val), HasType t v → Writes (write t v) (encode t v)
  | .scalar size, v, h => by
      rw [write, encode]
      exact rawWrite_writes v.bytes
  | .vector elem, v, h => by
      obtain ⟨parts, rfl⟩ := hasType_items h rfl
      rw [HasType] at h
      rw [write, encode]
      refine (serializeVle_writes _).bind ?_
      cases helem : elem.bitcopy with
      | none => exact forM_writes fun w hw => write_writes elem w (h.2 w hw)
      | some size =>
          cases elem with
          | scalar size =>
              rw [show encode (.scalar size) = Val.bytes from funext fun w => by rw [encode]]
              exact rawWrite_writes _
          | vector elem => cases helem
          | container kind elem => cases helem
          | tuple elems => cases helem
  | .container kind elem, v, h => by
      obtain ⟨parts, rfl⟩ := hasType_items h rfl
      rw [HasType] at h
      rw [write_container, encode]
      exact (serializeVle_writes _).bind (forM_writes fun w hw => write_writes elem w (h.2.1 w hw))
  | .tuple elems, v, h => by
      obtain ⟨parts, rfl⟩ := hasType_items h rfl
      rw [HasType] at h
      rw [write, encode]
      exact writeTuple_writes elems parts h

theorem writeTuple_writes : ∀ (ts : Tys) (parts : List Val), HasTypes ts parts →
    Writes (writeTuple ts parts) (encodeAll ts parts)
  | .nil, parts, h => by
      rw [writeTuple, encodeAll]
      exact writes_pure
  | .cons first rest, [], h => by
      simp [HasTypes] at h
  | .cons first rest, v :: parts, h => by
      rw [HasTypes] at h
      rw [writeTuple, encodeAll]
      exact (write_writes first v h.1).bind (writeTuple_writes rest parts h.2)

end

end Writing

section Reading

-- An access that takes the bytes from the place where it is, whatever follows them.
def Reads {α : Type} (m : Access α) (bytes : List Byte) (P : α → Prop) : Prop :=
  ∀ before after : List Byte, before.length + bytes.length + after.length < 2 ^ 64 →
    ∃ a, m ⟨before ++ bytes ++ after, before.length⟩ =
      some (a, ⟨before ++ bytes ++ after, before.length + bytes.length⟩) ∧ P a

variable {α β : Type} {bytes bytes' : List Byte}

theorem reads_pure {P : α → Prop} {a : α} (h : P a) : Reads (pure a) [] P := by
  intro before after _
  exact ⟨a, by rw [List.length_nil, Nat.add_zero]; rfl, h⟩

theorem Reads.bind {m : Access α} {f : α → Access β} {P : α → Prop} {Q : β → Prop}
    (h : Reads m bytes P) (h' : ∀ a, P a → Reads (f a) bytes' Q) :
    Reads (m >>= f) (bytes ++ bytes') Q := by
  intro before after hlt
  rw [List.length_append] at hlt
  obtain ⟨a, ha, hp⟩ := h before (bytes' ++ after) (by rw [List.length_append]; omega)
  obtain ⟨b, hb, hq⟩ := h' a hp (before ++ bytes) after (by rw [List.length_append]; omega)
  refine ⟨b, ?_, hq⟩
  rw [List.length_append] at hb
  simp only [List.append_assoc, List.length_append, Nat.add_assoc] at ha hb ⊢
  change (m _).bind (fun r => f r.1 r.2) = _
  rw [ha, Option.bind_some, hb]

theorem Reads.map {m : Access α} {f : α → β} {P : α → Prop} {Q : β → Prop} (h : Reads m bytes P)
    (h' : ∀ a, P a → Q (f a)) : Reads (do let a ← m; pure (f a)) bytes Q := by
  have := h.bind fun a ha => reads_pure (h' a ha)
  rwa [List.append_nil] at this

theorem reads_of_room {m : Access α} {P : α → Prop}
    (h : bytes.length < 2 ^ 64 → Reads m bytes P) : Reads m bytes P := by
  intro before after hlt
  exact h (by omega) before after hlt

theorem rawRead_reads (bytes : List Byte) : Reads (rawRead bytes.length) bytes (· = bytes) := by
  intro before after hlt
  refine ⟨bytes, ?_, rfl⟩
  by_cases hnil : bytes = []
  · subst hnil
    rw [rawRead, if_pos List.length_nil, List.length_nil, Nat.add_zero]
  · have hpos : 0 < bytes.length := List.length_pos_of_ne_nil hnil
    have hinside : ¬(before ++ bytes ++ after = [] ∨
        before.length + (bytes.length - 1) > (before ++ bytes ++ after).length - 1) := by
      simp only [List.append_eq_nil_iff, List.length_append]
      rintro (⟨⟨-, h⟩, -⟩ | h)
      · exact hnil h
      · omega
    rw [rawRead, if_neg (by omega), if_pos (show before.length + bytes.length ≤ 2 ^ 64 by omega),
      if_neg hinside, Nat.mod_eq_of_lt (show before.length + bytes.length < 2 ^ 64 by omega)]
    simp

theorem vleByte_toNat (n : Nat) :
    (vleByte n).toNat = n % 0x80 + if n / 2 ^ 7 ≠ 0 then 0x80 else 0 := by
  have hlow : n % 2 ^ 8 % 0x80 = n % 0x80 := Nat.mod_mod_of_dvd n (by decide)
  have hlt : n % 0x80 < 2 ^ 7 := Nat.mod_lt _ (by decide)
  rw [vleByte, BitVec.toNat_ofNat, hlow]
  by_cases hmore : n / 2 ^ 7 ≠ 0
  · have hor : 0x80 + n % 0x80 = 0x80 ||| n % 0x80 := Nat.two_pow_add_eq_or_of_lt hlt 1
    rw [if_pos hmore, Nat.or_comm, ← hor]
    omega
  · rw [if_neg hmore, Nat.or_zero]
    omega

theorem and_high_bit : ∀ byte : Fin (2 ^ 8), byte.val &&& 0x80 ≠ 0 ↔ 0x80 ≤ byte.val := by
  decide +kernel

theorem vleByte_more (n : Nat) : (vleByte n).toNat &&& 0x80 ≠ 0 ↔ n / 2 ^ 7 ≠ 0 := by
  have hlt : n % 0x80 < 0x80 := Nat.mod_lt _ (by decide)
  refine (and_high_bit ⟨(vleByte n).toNat, (vleByte n).isLt⟩).trans ?_
  change 0x80 ≤ (vleByte n).toNat ↔ _
  rw [vleByte_toNat]
  by_cases hmore : n / 2 ^ 7 ≠ 0
  · rw [if_pos hmore]
    exact iff_of_true (by omega) hmore
  · rw [if_neg hmore]
    exact iff_of_false (by omega) hmore

-- The bits from i on of what is read are those of n.
theorem vleLoop_reads (n : Nat) : ∀ fuel i k value, (vle n).length ≤ fuel → i + k = 64 →
    n < 2 ^ k → value < 2 ^ i →
    Reads (vleLoop fuel i value) (vle n) (· = value + n * 2 ^ i) := by
  induction n using Nat.strongRecOn with
  | ind n ih =>
      intro fuel i k value hfuel hik hn hvalue
      have hbyte := vleByte_toNat n
      have hdiv := Nat.div_add_mod n 0x80
      have htop : (n + 1) * 2 ^ i ≤ 2 ^ 64 := by
        rw [← hik, Nat.pow_add, Nat.mul_comm (2 ^ i)]
        exact Nat.mul_le_mul_right _ hn
      have hsplit : n * 2 ^ i = n % 0x80 * 2 ^ i + n / 0x80 * 2 ^ (i + 7) := by
        rw [Nat.pow_add, ← Nat.mul_assoc, Nat.mul_right_comm, ← Nat.add_mul]
        congr 1
        omega
      rw [Nat.add_mul, Nat.one_mul] at htop
      have hlow : (vleByte n).toNat % 0x80 = n % 0x80 := by
        rw [hbyte]
        split <;> omega
      have hsum : (value ||| ((vleByte n).toNat % 0x80) <<< i) % 2 ^ 64 =
          value + n % 0x80 * 2 ^ i := by
        rw [hlow, Nat.or_comm, ← Nat.shiftLeft_add_eq_or_of_lt hvalue, Nat.shiftLeft_eq,
          Nat.mod_eq_of_lt (by omega), Nat.add_comm]
      rw [vle] at hfuel ⊢
      obtain ⟨fuel, rfl⟩ : ∃ fuel', fuel = fuel' + 1 :=
        ⟨fuel - 1, by rw [List.length_cons] at hfuel; omega⟩
      rw [vleLoop, ← List.singleton_append]
      refine (rawRead_reads [vleByte n]).bind fun bytes hbytes => ?_
      subst hbytes
      simp only [List.headD_cons, hsum]
      by_cases hmore : n / 2 ^ 7 ≠ 0
      · rw [if_pos ((vleByte_more n).mpr hmore), if_pos hmore]
        rw [if_pos hmore, List.length_cons] at hfuel
        obtain ⟨k', rfl⟩ : ∃ k', k = k' + 7 := by
          refine ⟨k - 7, ?_⟩
          have hk : 2 ^ 7 < 2 ^ k := by omega
          have := (Nat.pow_lt_pow_iff_right (by decide)).mp hk
          omega
        have hvalue' : value + n % 0x80 * 2 ^ i < 2 ^ (i + 7) := by
          have hmod : (n % 0x80 + 1) * 2 ^ i ≤ 0x80 * 2 ^ i :=
            Nat.mul_le_mul_right _ (Nat.mod_lt _ (by decide))
          rw [Nat.add_mul, Nat.one_mul] at hmod
          rw [Nat.pow_add]
          omega
        have hrest := ih (n / 2 ^ 7) (by omega) fuel (i + 7) k' _ (by omega) (by omega)
          (Nat.div_lt_of_lt_mul (by rw [← Nat.pow_add, Nat.add_comm]; exact hn)) hvalue'
        rw [hsplit, ← Nat.add_assoc]
        exact hrest
      · rw [if_neg (mt (vleByte_more n).mp hmore), if_neg hmore]
        have hzero : n / 0x80 = 0 := not_not.mp hmore
        rw [hsplit, hzero, Nat.zero_mul, Nat.add_zero]
        exact reads_pure rfl

theorem deserializeVle_reads {n : Nat} (h : n < 2 ^ 64) : Reads deserializeVle (vle n) (· = n) := by
  intro before after hlt
  obtain ⟨a, ha, rfl⟩ := vleLoop_reads n ((before ++ vle n ++ after).length + 1) 0 64 0
    (by simp only [List.length_append]; omega) rfl h (by decide) before after hlt
  exact ⟨_, ha, by omega⟩

variable {same : Val → Val → Prop} {code : Val → List Byte} {parts : List Val}

theorem readParts_reads {elem : Access Val} (h : ∀ v ∈ parts, Reads elem (code v) (same v)) :
    Reads (readParts elem parts.length) (parts.flatMap code) (List.Forall₂ same parts) := by
  induction parts with
  | nil => exact reads_pure .nil
  | cons v parts ih =>
      rw [List.length_cons, readParts, List.flatMap_cons]
      refine (h v List.mem_cons_self).bind fun w hw => ?_
      exact (ih fun u hu => h u (List.mem_cons_of_mem _ hu)).map fun ws hws => .cons hw hws

theorem chunks_flatMap {size : Nat} (h : ∀ v ∈ parts, HasType (.scalar size) v) :
    chunks size parts.length (parts.flatMap Val.bytes) = parts ∧
      (parts.flatMap Val.bytes).length = size * parts.length := by
  induction parts with
  | nil => exact ⟨rfl, rfl⟩
  | cons v parts ih =>
      obtain ⟨hchunks, hlength⟩ := ih fun w hw => h w (List.mem_cons_of_mem _ hw)
      have hv := h v List.mem_cons_self
      cases v with
      | items rest => simp [HasType] at hv
      | scalar bytes =>
          rw [HasType] at hv
          rw [List.length_cons, chunks, List.flatMap_cons, Val.bytes, ← hv, List.take_left,
            List.drop_left, List.length_append, hv, hchunks, hlength, Nat.mul_add, Nat.mul_one]
          exact ⟨rfl, Nat.add_comm ..⟩

theorem not_any_of_forall₂ {done acc : List Val} (h : List.Forall₂ same done acc) {P Q : Val → Prop}
    (hpq : ∀ v w, same v w → P v → Q w) (hdone : ∀ v ∈ done, P v) : ∀ w ∈ acc, Q w := by
  induction h with
  | nil => nofun
  | cons hvw _ ih =>
      intro w hw
      rcases List.mem_cons.mp hw with rfl | hw
      · exact hpq _ _ hvw (hdone _ List.mem_cons_self)
      · exact ih (fun v hv => hdone v (List.mem_cons_of_mem _ hv)) w hw

theorem same_scalars {size : Nat} (h : ∀ v ∈ parts, HasType (.scalar size) v) :
    List.Forall₂ (Same (.scalar size)) parts parts := by
  induction parts with
  | nil => exact .nil
  | cons v parts ih =>
      have hv := h v List.mem_cons_self
      refine .cons ?_ (ih fun w hw => h w (List.mem_cons_of_mem _ hw))
      cases v with
      | items rest => simp [HasType] at hv
      | scalar bytes => rw [Same]

-- The elements that were written one after the other are read as one piece.
theorem readBulk_reads {size : Nat} (h : ∀ v ∈ parts, HasType (.scalar size) v) :
    Reads (do
        let bytes ← rawRead (size * parts.length % 2 ^ 64)
        pure (.items (chunks size parts.length bytes)))
      (parts.flatMap (encode (.scalar size))) (Same (.vector (.scalar size)) (.items parts)) := by
  obtain ⟨hchunks, hlength⟩ := chunks_flatMap h
  rw [show encode (.scalar size) = Val.bytes from funext fun w => by rw [encode]]
  refine reads_of_room fun hroom => ?_
  rw [← hlength, Nat.mod_eq_of_lt hroom]
  refine (rawRead_reads _).map fun bytes hbytes => ?_
  subst hbytes
  rw [hchunks, Same]
  exact same_scalars h

-- A value that is read goes to the end of the container.
theorem sameParts_insert {kind : Kind} (hrespects : kind.Respects same) {done todo acc : List Val}
    {v w : Val} (hholds : kind.Holds (done ++ v :: todo)) (hdone : kind.SameParts same done acc)
    (hvw : same v w) : kind.SameParts same (done ++ [v]) (kind.insert acc w) := by
  have happend {acc : List Val} (h : List.Forall₂ same done acc) :
      List.Forall₂ same (done ++ [v]) (acc ++ [w]) := List.rel_append h (.cons hvw .nil)
  cases kind with
  | sequence => exact happend hdone
  | sorted lt unique =>
      have hacc : ∀ u ∈ acc, lt w u = false ∧ (unique = true → lt u w = true) := by
        refine not_any_of_forall₂ hdone (P := fun u => lt v u = false ∧ (unique = true → lt u v = true))
          (fun u u' hu hp => ?_) fun u hu => ?_
        · rw [← hrespects v w u u' hvw hu, ← hrespects u u' v w hu hvw]
          exact hp
        · exact (List.pairwise_append.mp hholds).2.2 u hu v List.mem_cons_self
      have hany : (unique && acc.any fun u => !lt u w && !lt w u) = false := by
        cases unique with
        | false => rfl
        | true =>
            rw [Bool.true_and, List.any_eq_false]
            intro u hu
            simp [(hacc u hu).2 rfl]
      have htake : acc.takeWhile (!lt w ·) = acc :=
        List.takeWhile_eq_self_iff.mpr fun u hu => by rw [(hacc u hu).1]; rfl
      have hdrop : acc.dropWhile (!lt w ·) = [] :=
        List.dropWhile_eq_nil_iff.mpr fun u hu => by rw [(hacc u hu).1]; rfl
      rw [Kind.insert, hany, if_neg (by decide), htake, hdrop]
      exact happend hdone
  | hashed table =>
      obtain ⟨between, hbetween, hperm⟩ := hdone
      have hfree : ∀ u ∈ acc, table.conflict u w = false := by
        intro u hu
        refine not_any_of_forall₂ hbetween (P := fun u => table.conflict u v = false)
          (Q := fun u => table.conflict u w = false) (fun u u' hu hp => ?_) (fun u hu => ?_) u
          (hperm.mem_iff.mpr hu)
        · rw [← hrespects u u' v w hu hvw]
          exact hp
        · exact (List.pairwise_append.mp hholds).2.2 u hu v List.mem_cons_self
      exact ⟨between ++ [w], happend hbetween,
        (hperm.append_right [w]).trans (table.insert_perm acc w hfree).symm⟩

theorem insertParts_reads {kind : Kind} (hrespects : kind.Respects same) {elem : Access Val}
    (done : List Val) {acc : List Val} (hholds : kind.Holds (done ++ parts))
    (hdone : kind.SameParts same done acc) (h : ∀ v ∈ parts, Reads elem (code v) (same v)) :
    Reads (insertParts kind elem parts.length acc) (parts.flatMap code)
      (kind.SameParts same (done ++ parts)) := by
  induction parts generalizing done acc with
  | nil =>
      rw [List.append_nil]
      exact reads_pure hdone
  | cons v parts ih =>
      rw [List.length_cons, insertParts, List.flatMap_cons]
      refine (h v List.mem_cons_self).bind fun w hw => ?_
      have hrest := ih (done ++ [v]) (by rwa [List.append_assoc, List.singleton_append])
        (sameParts_insert hrespects hholds hdone hw) fun u hu => h u (List.mem_cons_of_mem _ hu)
      rwa [List.append_assoc, List.singleton_append] at hrest

theorem sameParts_nil (kind : Kind) : kind.SameParts same [] [] := by
  cases kind with
  | sequence => exact .nil
  | sorted lt unique => exact .nil
  | hashed table => exact ⟨[], .nil, .refl _⟩

mutual

theorem read_reads (pop : Bool) : ∀ (t : Ty) (v : Val), HasType t v → Lawful t →
    Reads (read pop t) (encode t v) (Same t v)
  | .scalar size, .items parts, h, _ => by simp [HasType] at h
  | .scalar size, .scalar bytes, h, _ => by
      rw [HasType] at h
      rw [read, encode, ← h]
      refine (rawRead_reads bytes).map fun bytes' hbytes => ?_
      rw [Same]
      exact hbytes.symm
  | .vector elem, v, h, hlawful => by
      obtain ⟨parts, rfl⟩ := hasType_items h rfl
      rw [HasType] at h
      rw [Lawful] at hlawful
      rw [read, encode]
      refine (deserializeVle_reads h.1).bind fun count hcount => ?_
      subst hcount
      cases helem : elem.bitcopy with
      | none =>
          refine (readParts_reads fun w hw => read_reads false elem w (h.2 w hw) hlawful).map
            fun parts' hparts => ?_
          rw [Same]
          exact hparts
      | some size =>
          cases elem with
          | vector elem => cases helem
          | container kind elem => cases helem
          | tuple elems => cases helem
          | scalar size =>
              cases helem
              exact readBulk_reads h.2
  | .container kind elem, v, h, hlawful => by
      obtain ⟨parts, rfl⟩ := hasType_items h rfl
      rw [HasType] at h
      rw [Lawful] at hlawful
      rw [read, encode]
      refine (deserializeVle_reads h.1).bind fun count hcount => ?_
      subst hcount
      refine (insertParts_reads hlawful.2 [] h.2.2 (sameParts_nil kind) fun w hw =>
        read_reads true elem w (h.2.1 w hw) hlawful.1).map fun parts' hparts => ?_
      rw [Same]
      exact hparts
  | .tuple elems, v, h, hlawful => by
      obtain ⟨parts, rfl⟩ := hasType_items h rfl
      rw [HasType] at h
      rw [Lawful] at hlawful
      rw [read, encode]
      refine (readTuple_reads pop elems parts h hlawful).map fun parts' hparts => ?_
      rw [Same]
      exact hparts

theorem readTuple_reads (pop : Bool) : ∀ (ts : Tys) (parts : List Val), HasTypes ts parts →
    AllLawful ts → Reads (readTuple pop ts) (encodeAll ts parts) (SameAll ts parts)
  | .nil, [], _, _ => by
      rw [readTuple, encodeAll]
      refine reads_pure ?_
      rw [SameAll]
      trivial
  | .nil, v :: parts, h, _ => by simp [HasTypes] at h
  | .cons first rest, [], h, _ => by simp [HasTypes] at h
  | .cons first rest, v :: parts, h, hlawful => by
      rw [HasTypes] at h
      rw [AllLawful] at hlawful
      rw [readTuple, encodeAll]
      refine (read_reads pop first v h.1 hlawful.1).bind fun w hw => ?_
      refine (readTuple_reads pop rest parts h.2 hlawful.2).map fun ws hws => ?_
      rw [SameAll]
      exact ⟨hw, hws⟩

end

end Reading

section Same

def Kind.Ordered : Kind → Prop
  | .hashed _ => False
  | _ => True

mutual

-- No part of the value is in an order that the program leaves open.
def Plain : Ty → Prop
  | .scalar _ => True
  | .vector elem => Plain elem
  | .container kind elem => kind.Ordered ∧ Plain elem
  | .tuple elems => AllPlain elems

def AllPlain : Tys → Prop
  | .nil => True
  | .cons first rest => Plain first ∧ AllPlain rest

end

theorem eq_of_forall₂ {parts parts' : List Val} {same : Val → Val → Prop}
    (h : List.Forall₂ same parts parts') (heq : ∀ v v', same v v' → v = v') : parts = parts' := by
  induction h with
  | nil => rfl
  | cons hv _ ih => rw [heq _ _ hv, ih]

mutual

theorem same_eq : ∀ (t : Ty) (v v' : Val), Plain t → Same t v v' → v = v'
  | .scalar _, v, v', _, h => by
      cases v <;> cases v' <;> simp only [Same] at h
      rw [h]
  | .vector elem, v, v', hplain, h => by
      rw [Plain] at hplain
      cases v <;> cases v' <;> simp only [Same] at h
      rw [eq_of_forall₂ h fun w w' => same_eq elem w w' hplain]
  | .container kind elem, v, v', hplain, h => by
      rw [Plain] at hplain
      cases v <;> cases v' <;> simp only [Same] at h
      cases kind with
      | hashed table => exact hplain.1.elim
      | sequence => rw [eq_of_forall₂ h fun w w' => same_eq elem w w' hplain.2]
      | sorted lt unique => rw [eq_of_forall₂ h fun w w' => same_eq elem w w' hplain.2]
  | .tuple elems, v, v', hplain, h => by
      rw [Plain] at hplain
      cases v <;> cases v' <;> simp only [Same] at h
      rw [sameAll_eq elems _ _ hplain h]

theorem sameAll_eq : ∀ (ts : Tys) (parts parts' : List Val), AllPlain ts →
    SameAll ts parts parts' → parts = parts'
  | .nil, parts, parts', _, h => by
      cases parts <;> cases parts' <;> simp only [SameAll] at h
      rfl
  | .cons first rest, parts, parts', hplain, h => by
      rw [AllPlain] at hplain
      cases parts <;> cases parts' <;> simp only [SameAll] at h
      rw [same_eq first _ _ hplain.1 h.1, sameAll_eq rest _ _ hplain.2 h.2]

end

theorem values_eq {values : List (Ty × Val)} {parts : List Val}
    (h : List.Forall₂ (fun value v => Same value.1 value.2 v) values parts)
    (hplain : ∀ value ∈ values, Plain value.1) : parts = values.map Prod.snd := by
  induction h with
  | nil => rfl
  | cons hv _ ih =>
      rw [List.map_cons, ← same_eq _ _ _ (hplain _ List.mem_cons_self) hv,
        ih fun value hvalue => hplain value (List.mem_cons_of_mem _ hvalue)]

end Same

section Sequences

def writeSequence (values : List (Ty × Val)) : Access Unit :=
  values.forM fun value => write value.1 value.2

def readSequence (pop : Bool) : List Ty → Access (List Val)
  | [] => pure []
  | t :: ts => do
      let v ← read pop t
      let parts ← readSequence pop ts
      pure (v :: parts)

def encodeSequence (values : List (Ty × Val)) : List Byte :=
  values.flatMap fun value => encode value.1 value.2

theorem readSequence_reads (pop : Bool) {values : List (Ty × Val)}
    (h : ∀ value ∈ values, HasType value.1 value.2 ∧ Lawful value.1) :
    Reads (readSequence pop (values.map Prod.fst)) (encodeSequence values)
      (List.Forall₂ (fun value v => Same value.1 value.2 v) values) := by
  induction values with
  | nil => exact reads_pure .nil
  | cons value values ih =>
      obtain ⟨htyped, hlawful⟩ := h value List.mem_cons_self
      rw [List.map_cons, readSequence, encodeSequence, List.flatMap_cons]
      refine (read_reads pop value.1 value.2 htyped hlawful).bind fun v hv => ?_
      exact (ih fun u hu => h u (List.mem_cons_of_mem _ hu)).map fun vs hvs => .cons hv hvs

def ReadBack (values : List (Ty × Val)) (parts : List Val) : Prop :=
  List.Forall₂ (fun value v => Same value.1 value.2 v) values parts ∧
    ((∀ value ∈ values, Plain value.1) → parts = values.map Prod.snd)

-- The values are written, and read back by their types up to the end of the data.
def RoundTrips (pop : Bool) (values : List (Ty × Val)) : Prop :=
  ∃ s s' parts, writeSequence values {} = some ((), s) ∧
    readSequence pop (values.map Prod.fst) s.setReadingState = some (parts, s') ∧
    ReadBack values parts ∧ s'.data = s.data ∧ s'.pos = s.data.length

def VleRoundTrips (n : BitVec 64) : Prop :=
  ∃ s s', serializeVle n.toNat {} = some ((), s) ∧
    deserializeVle s.setReadingState = some (n.toNat, s') ∧ s'.data = s.data ∧
    s'.pos = s.data.length

-- What a writer appends to empty data, a reader takes from its beginning.
theorem run_both {α : Type} {m : Access Unit} {m' : Access α} {bytes : List Byte} {P : α → Prop}
    (hwrites : Writes m bytes) (hreads : Reads m' bytes P) (hroom : bytes.length < 2 ^ 64) :
    ∃ s s' a, m {} = some ((), s) ∧ m' s.setReadingState = some (a, s') ∧ P a ∧
      s'.data = s.data ∧ s'.pos = s.data.length := by
  have hw := hwrites [] (by rw [List.length_nil]; omega)
  obtain ⟨a, ha, hp⟩ := hreads [] [] (by rw [List.length_nil]; omega)
  rw [List.nil_append, List.append_nil] at ha
  rw [List.nil_append] at hw
  exact ⟨_, _, a, hw, ha, hp, rfl, Nat.zero_add _⟩

theorem vle_of_lt {n : Nat} (h : n < 2 ^ 7) : vle n = [vleByte n] := by
  rw [vle, if_neg (by omega)]

theorem vle_length_le (k : Nat) : ∀ {n}, n < 2 ^ (7 * (k + 1)) → (vle n).length ≤ k + 1 := by
  induction k with
  | zero =>
      intro n h
      rw [vle_of_lt h, List.length_singleton]
  | succ k ih =>
      intro n h
      rw [vle]
      by_cases hmore : n / 2 ^ 7 ≠ 0
      · have hrest : n / 2 ^ 7 < 2 ^ (7 * (k + 1)) := by
          refine Nat.div_lt_of_lt_mul ?_
          rwa [← Nat.pow_add, Nat.add_comm]
        rw [if_pos hmore, List.length_cons]
        exact Nat.add_le_add_right (ih hrest) 1
      · rw [if_neg hmore, List.length_singleton]
        exact Nat.le_add_left ..

theorem vle_roundTrips (n : BitVec 64) : VleRoundTrips n := by
  have hlt := n.isLt
  have hlength : (vle n.toNat).length ≤ 9 + 1 := vle_length_le 9 (by omega)
  obtain ⟨s, s', a, hw, hr, rfl, hend⟩ :=
    run_both (serializeVle_writes n.toNat) (deserializeVle_reads hlt) (by omega)
  exact ⟨s, s', hw, hr, hend⟩

theorem roundTrips (pop : Bool) (values : List (Ty × Val))
    (htyped : ∀ value ∈ values, HasType value.1 value.2 ∧ Lawful value.1)
    (hroom : (encodeSequence values).length < 2 ^ 64) :
    RoundTrips pop values ∧ ∀ n, VleRoundTrips n := by
  obtain ⟨s, s', parts, hw, hr, hsame, hend⟩ :=
    run_both (forM_writes fun value hv => write_writes value.1 value.2 (htyped value hv).1)
      (readSequence_reads pop htyped) hroom
  exact ⟨⟨s, s', parts, hw, hr, ⟨hsame, values_eq hsame⟩, hend⟩, vle_roundTrips⟩

-- A string, and a map of bytes to strings in the order of its keys.
def keyLt (v w : Val) : Bool :=
  (v.parts.headD (.items [])).bytes.headD 0 < (w.parts.headD (.items [])).bytes.headD 0

def text : Ty := .vector (.scalar 1)

def textMap : Ty := .container (.sorted keyLt true) (.tuple (.cons (.scalar 1) (.cons text .nil)))

def entry (key : Byte) (chars : List Byte) : Val :=
  .items [.scalar [key], .items (chars.map fun c => .scalar [c])]

def AllVleRoundTrip : Prop := ∀ n, VleRoundTrips n

theorem roundTrips_textMap :
    RoundTrips true [(.scalar 2, .scalar [5, 6]), (textMap, .items [entry 1 [65, 66], entry 2 []])] ∧
      AllVleRoundTrip := by
  refine roundTrips true _ (fun value hv => ?_) ?_
  · rcases List.mem_cons.mp hv with rfl | hv
    · exact ⟨by simp [HasType], by simp [Lawful]⟩
    · rcases List.mem_cons.mp hv with rfl | hv
      · refine ⟨?_, ?_⟩
        · simp [HasType, HasTypes, textMap, text, entry, Kind.Holds, keyLt, Val.parts, Val.bytes]
        · have hplain : Plain (.tuple (.cons (.scalar 1) (.cons text .nil))) := by
            simp [Plain, AllPlain, text]
          refine ⟨by simp [Lawful, AllLawful, text], fun v v' w w' hv hw => ?_⟩
          rw [same_eq _ v v' hplain hv, same_eq _ w w' hplain hw]
      · cases hv
  · have hempty : vle 0 = [vleByte 0] := vle_of_lt (by decide)
    have htwo : vle 2 = [vleByte 2] := vle_of_lt (by decide)
    simp [encodeSequence, encode, encodeAll, textMap, text, entry, Val.parts, Val.bytes, hempty,
      htwo]

end Sequences

end Rpcsx.Serialization
