import Rpcsx.Data.Text

namespace Rpcsx.Data.Text

variable {p : Char → Bool}

-- Every run of blanks becomes one; the flag tells whether a run has begun.
def squash (p : Char → Bool) : Bool → Text → Text
  | _, [] => []
  | inside, c :: rest =>
      if p c then (if inside then squash p true rest else ' ' :: squash p true rest)
      else c :: squash p false rest

-- The parts between runs of blanks.
def words (p : Char → Bool) (text : Text) : List Text := (text.splitOnP p).filter (· ≠ [])

theorem mem_squash {inside : Bool} {text : Text} {c : Char} (h : c ∈ squash p inside text) :
    c = ' ' ∨ p c = false := by
  induction text generalizing inside with
  | nil => cases h
  | cons d rest ih =>
      rw [squash] at h
      split at h
      · split at h
        · exact ih h
        · rcases List.mem_cons.mp h with rfl | hmem
          · exact .inl rfl
          · exact ih hmem
      · next hd =>
          rcases List.mem_cons.mp h with rfl | hmem
          · exact .inr (by simpa using hd)
          · exact ih hmem

theorem squash_concat {c : Char} (hc : p c = false) (inside : Bool) (text : Text) :
    squash p inside (text ++ [c]) = squash p inside text ++ [c] := by
  induction text generalizing inside with
  | nil => simp [squash, hc]
  | cons d rest ih =>
      rw [List.cons_append, squash, squash]
      split
      · split
        · exact ih true
        · rw [ih true, List.cons_append]
      · rw [ih false, List.cons_append]

-- A text without a blank at its end.
def EndsWord (p : Char → Bool) (text : Text) : Prop := ∃ front c, text = front ++ [c] ∧ p c = false

theorem EndsWord.append {text : Text} (h : EndsWord p text) (front : Text) :
    EndsWord p (front ++ text) := by
  obtain ⟨rest, c, rfl, hc⟩ := h
  exact ⟨front ++ rest, c, (List.append_assoc _ _ _).symm, hc⟩

theorem EndsWord.tail {c : Char} {text : Text} (h : EndsWord p (c :: text)) (hc : p c = true) :
    EndsWord p text := by
  obtain ⟨front, d, heq, hd⟩ := h
  cases front with
  | nil =>
      obtain ⟨rfl, rfl⟩ := List.cons.inj heq
      rw [hc] at hd
      cases hd
  | cons e front => exact ⟨front, d, (List.cons.inj heq).2, hd⟩

theorem words_ne_nil {text : Text} (h : EndsWord p text) : words p text ≠ [] := by
  induction text with
  | nil =>
      obtain ⟨front, c, heq, -⟩ := h
      simp at heq
  | cons c rest ih =>
      rw [words, List.splitOnP_cons_eq_if_modifyHead]
      split
      · next hc =>
          rw [List.filter_cons_of_neg (by simp)]
          exact ih (h.tail hc)
      · obtain ⟨first, others, heq⟩ := List.exists_cons_of_ne_nil (List.splitOnP_ne_nil p rest)
        rw [heq, List.modifyHead_cons, List.filter_cons_of_pos (by simp)]
        exact List.cons_ne_nil _ _

theorem not_mem_words {text word : Text} (h : word ∈ words p text) {c : Char} (hc : p c = true) :
    c ∉ word := by
  have hparts : ∀ part ∈ text.splitOnP p, c ∉ part := by
    clear h
    induction text with
    | nil => simp
    | cons d rest ih =>
        rw [List.splitOnP_cons_eq_if_modifyHead]
        obtain ⟨first, others, heq⟩ := List.exists_cons_of_ne_nil (List.splitOnP_ne_nil p rest)
        rw [heq] at ih ⊢
        split
        · exact List.forall_mem_cons.mpr ⟨List.not_mem_nil, ih⟩
        · next hd =>
            rw [List.modifyHead_cons]
            refine List.forall_mem_cons.mpr ⟨?_, fun part hpart => ih part (by simp [hpart])⟩
            intro hmem
            rcases List.mem_cons.mp hmem with rfl | hmem
            · exact hd hc
            · exact ih first List.mem_cons_self hmem
  exact hparts word (List.mem_of_mem_filter h)

-- A word behind a blank.
theorem words_append {blank : Char} (hb : p blank = true) (text : Text) {word : Text}
    (hne : word ≠ []) (hword : ∀ c ∈ word, p c = false) :
    words p (text ++ blank :: word) = words p text ++ [word] := by
  rw [words, List.splitOnP_append_cons text word hb, List.splitOnP_eq_singleton hword,
    List.filter_append, words]
  congr 1
  rw [List.filter_cons_of_pos (by simpa using hne), List.filter_nil]

-- The words with one blank in front of each.
def spell (parts : List Text) : Text := parts.flatMap (' ' :: ·)

theorem intercalate_spell (word : Text) (parts : List Text) :
    [' '].intercalate (word :: parts) = word ++ spell parts := by
  induction parts generalizing word with
  | nil => simp [spell]
  | cons next parts ih =>
      rw [List.intercalate_cons_cons, ih]
      simp [spell]

theorem squash_eq {text : Text} (h : text = [] ∨ EndsWord p text) :
    squash p true text = [' '].intercalate (words p text) ∧
      ∀ first others, text.splitOnP p = first :: others →
        squash p false text = first ++ spell (others.filter (· ≠ [])) := by
  induction text with
  | nil =>
      refine ⟨rfl, ?_⟩
      intro first others heq
      obtain ⟨rfl, rfl⟩ := List.cons.inj heq.symm
      rfl
  | cons c rest ih =>
      obtain ⟨first, others, heq⟩ := List.exists_cons_of_ne_nil (List.splitOnP_ne_nil p rest)
      have hrest : rest = [] ∨ EndsWord p rest := by
        rcases h with h | ⟨front, d, hfront, hd⟩
        · cases h
        · cases front with
          | nil => exact .inl (List.cons.inj hfront).2
          | cons e front => exact .inr ⟨front, d, (List.cons.inj hfront).2, hd⟩
      obtain ⟨htrue, hfalse⟩ := ih hrest
      by_cases hc : p c = true
      · have hwords : words p (c :: rest) = words p rest := by
          rw [words, List.splitOnP_cons_eq_if_modifyHead, if_pos hc,
            List.filter_cons_of_neg (by simp), words]
        refine ⟨by rw [squash, if_pos hc, if_pos rfl, htrue, hwords], ?_⟩
        intro front behind hsplit
        rw [List.splitOnP_cons_eq_if_modifyHead, if_pos hc] at hsplit
        obtain ⟨rfl, rfl⟩ := List.cons.inj hsplit
        -- a blank is not the end, so a word comes behind it
        have hends : EndsWord p rest := by
          rcases h with h | h
          · cases h
          · exact h.tail hc
        obtain ⟨word, parts, hparts⟩ := List.exists_cons_of_ne_nil (words_ne_nil hends)
        rw [squash, if_pos hc, if_neg (by decide), htrue, hparts, intercalate_spell]
        rw [words] at hparts
        rw [hparts, spell, spell, List.flatMap_cons]
        rfl
      · have hsplit : (c :: rest).splitOnP p = (c :: first) :: others := by
          rw [List.splitOnP_cons_eq_if_modifyHead, if_neg hc, heq, List.modifyHead_cons]
        have hsquash (inside : Bool) : squash p inside (c :: rest) =
            c :: first ++ spell (others.filter (· ≠ [])) := by
          rw [squash, if_neg hc, hfalse first others heq, List.cons_append]
        refine ⟨?_, ?_⟩
        · rw [hsquash, words, hsplit, List.filter_cons_of_pos (by simp), intercalate_spell]
        · intro front behind hfront
          rw [hsplit] at hfront
          obtain ⟨rfl, rfl⟩ := List.cons.inj hfront
          exact hsquash false

-- Texts are the same up to runs of blanks when they have the same words.
theorem squash_eq_iff (hp : p ' ' = true) {left right : Text} (hl : EndsWord p left)
    (hr : EndsWord p right) :
    squash p true left = squash p true right ↔ words p left = words p right := by
  rw [(squash_eq (.inr hl)).1, (squash_eq (.inr hr)).1]
  refine ⟨fun h => ?_, fun h => by rw [h]⟩
  rw [← List.splitOn_intercalate ' ' (fun word hword => not_mem_words hword hp) (words_ne_nil hl), h,
    List.splitOn_intercalate ' ' (fun word hword => not_mem_words hword hp) (words_ne_nil hr)]

end Rpcsx.Data.Text
