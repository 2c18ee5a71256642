import Rpcsx.GameSettings

namespace Rpcsx.GameSettings

open Data Data.Text

variable {platform : Platform} {s : State} {io : Io} {files : Files} {name other text : Text}
  {content : Option Text} {titleId : TitleId}

@[simp] theorem setFile_self : setFile files name content name = content := if_pos rfl

-- What one call does to the files: nothing; an edit of the user; a new content for a config file
-- that holds no user text; a backup of a user text, whole or cut off; or the backup of the whole
-- user text followed by a new content for the config file.
inductive FileEffect (call : Call) (files : Files) : Files → Prop where
  | none : FileEffect call files files
  | edit (titleId : TitleId) (text : Text) (h : call = .userEdit titleId text) :
      FileEffect call files (setFile files (configName titleId) (some text))
  | managed (titleId : TitleId) (content : Option Text)
      (h : ∀ existing, files (configName titleId) = some existing → isManaged existing) :
      FileEffect call files (setFile files (configName titleId) content)
  | backup (titleId : TitleId) (currentTimeMillis : Int) (content : Option Text)
      (h : files (backupName titleId currentTimeMillis) = Option.none) :
      FileEffect call files (setFile files (backupName titleId currentTimeMillis) content)
  | replaced (titleId : TitleId) (currentTimeMillis : Int) (existing : Text)
      (content : Option Text) (hcall : call = .replaceCustomWithRecommendedConfig (some titleId))
      (hexisting : files (configName titleId) = some existing)
      (hbackup : files (backupName titleId currentTimeMillis) = Option.none) :
      FileEffect call files
        (setFile (setFile files (backupName titleId currentTimeMillis) (some existing))
          (configName titleId) content)

@[simp] theorem loadDatabase_files : (loadDatabase platform io s).2.files = s.files := by
  unfold loadDatabase
  cases s.cachedDatabase <;> rfl

@[simp] theorem statusForGame_files : (statusForGame platform io s).files = s.files :=
  loadDatabase_files

theorem setLocalDatabase_files (io : Io) (text : Text) (s : State) :
    (setLocalDatabase io text s).1.files = s.files := by
  unfold setLocalDatabase
  cases io.written <;> rfl

-- A write that is not whole is a write of something else, or none.
theorem writeText_cases (outcome : Outcome) (name text : Text) (files : Files) :
    writeText outcome name text files = (setFile files name (some text), true) ∨
      (writeText outcome name text files).2 = false ∧
        ((writeText outcome name text files).1 = files ∨
          ∃ part, (writeText outcome name text files).1 = setFile files name (some part)) := by
  cases outcome with
  | done => exact Or.inl rfl
  | notOpened => exact Or.inr ⟨rfl, Or.inl rfl⟩
  | cutOff length => exact Or.inr ⟨rfl, Or.inr ⟨_, rfl⟩⟩

theorem writeText_files (outcome : Outcome) (name text : Text) (files : Files) :
    (writeText outcome name text files).1 = files ∨
      ∃ part, (writeText outcome name text files).1 = setFile files name (some part) := by
  rcases writeText_cases outcome name text files with h | ⟨-, h⟩
  · exact Or.inr ⟨text, by rw [h]⟩
  · exact h

theorem backupCustomConfig_cases (io : Io) (titleId : TitleId) (existing : Text) (files : Files) :
    (files (backupName titleId io.currentTimeMillis) = none ∧
      backupCustomConfig io titleId existing files =
        (setFile files (backupName titleId io.currentTimeMillis) (some existing), true)) ∨
      (backupCustomConfig io titleId existing files).2 = false ∧
        ((backupCustomConfig io titleId existing files).1 = files ∨
          files (backupName titleId io.currentTimeMillis) = none ∧
          ∃ part, (backupCustomConfig io titleId existing files).1 =
            setFile files (backupName titleId io.currentTimeMillis) (some part)) := by
  cases hname : files (backupName titleId io.currentTimeMillis) with
  | some content =>
      have he : backupCustomConfig io titleId existing files = (files, false) := by
        unfold backupCustomConfig
        rw [if_pos (by rw [hname]; rfl)]
      rw [he]
      exact Or.inr ⟨rfl, Or.inl rfl⟩
  | none =>
      have he : backupCustomConfig io titleId existing files =
          writeText io.copied (backupName titleId io.currentTimeMillis) existing files := by
        unfold backupCustomConfig
        rw [if_neg (by rw [hname]; simp)]
      rw [he]
      rcases writeText_cases io.copied (backupName titleId io.currentTimeMillis) existing files
        with h | ⟨hfalse, h⟩
      · exact Or.inl ⟨rfl, h⟩
      · exact Or.inr ⟨hfalse, h.imp id fun h => ⟨rfl, h⟩⟩

variable {call : Call}

theorem writeText_effect (outcome : Outcome)
    (h : ∀ existing, files (configName titleId) = some existing → isManaged existing) :
    FileEffect call files (writeText outcome (configName titleId) text files).1 := by
  rcases writeText_files outcome (configName titleId) text files with hfiles | ⟨part, hfiles⟩
  · rw [hfiles]
    exact .none
  · rw [hfiles]
    exact .managed titleId _ h

-- Only the branch for a custom config with replaceCustomConfig set overwrites a user text.
theorem writeManagedConfig_effect {body : Text} {replaceCustomConfig : Bool}
    (hcall : replaceCustomConfig = true → call = .replaceCustomWithRecommendedConfig (some titleId)) :
    FileEffect call s.files (writeManagedConfig io titleId body replaceCustomConfig s).files := by
  unfold writeManagedConfig
  cases hfile : s.files (configName titleId) with
  | none => exact writeText_effect _ (by simp [hfile])
  | some existing =>
      dsimp only
      by_cases hread : io.readable = false
      · rw [if_pos hread]
        exact .none
      rw [if_neg hread]
      by_cases hmanaged : isManaged existing = false
      · rw [if_pos hmanaged]
        by_cases hreplace : replaceCustomConfig = false
        · rw [if_pos hreplace]
          exact .none
        rw [if_neg hreplace]
        rcases backupCustomConfig_cases io titleId existing s.files with ⟨hnone, hbackup⟩ | ⟨hfalse, hbackup⟩
        · rw [hbackup]
          dsimp only
          rw [if_neg (by decide)]
          rcases writeText_cases io.written (configName titleId) body
            (setFile s.files (backupName titleId io.currentTimeMillis) (some existing))
            with hwrite | ⟨hwritten, hwrite⟩
          · rw [hwrite]
            exact .replaced titleId _ existing _ (hcall (by simpa using hreplace)) hfile hnone
          · rw [if_pos hwritten]
            rcases hwrite with hwrite | ⟨part, hwrite⟩
            · dsimp only
              rw [hwrite]
              exact .backup titleId _ _ hnone
            · dsimp only
              rw [hwrite]
              exact .replaced titleId _ existing _ (hcall (by simpa using hreplace)) hfile hnone
        · rw [if_pos hfalse]
          rcases hbackup with hbackup | ⟨hnone, part, hbackup⟩
          · dsimp only
            rw [hbackup]
            exact .none
          · dsimp only
            rw [hbackup]
            exact .backup titleId _ _ hnone
      rw [if_neg hmanaged]
      by_cases hsame : existing = body
      · rw [if_pos hsame]
        exact .none
      · rw [if_neg hsame]
        apply writeText_effect
        intro other hother
        rw [hfile] at hother
        obtain rfl := Option.some.inj hother
        simpa using hmanaged

theorem applyRecommendedConfig_effect {title : Option TitleId} {replaceCustomConfig : Bool}
    (hcall : replaceCustomConfig = true → call = .replaceCustomWithRecommendedConfig title) :
    FileEffect call s.files
      (applyRecommendedConfig platform io title replaceCustomConfig s).files := by
  unfold applyRecommendedConfig
  cases title with
  | none =>
      dsimp only
      rw [statusForGame_files]
      exact .none
  | some titleId =>
      have hfiles : (loadDatabase platform io s).2.files = s.files := loadDatabase_files
      rcases hload : loadDatabase platform io s with ⟨database, s'⟩
      rw [hload] at hfiles
      rw [← hfiles]
      cases database with
      | none =>
          dsimp only
          rw [statusForGame_files]
          exact .none
      | some database =>
          dsimp only
          cases database.profiles.lookup titleId.text with
          | none =>
              dsimp only
              rw [statusForGame_files]
              exact .none
          | some config =>
              dsimp only
              split
              · rw [statusForGame_files]
                exact .none
              · split
                · rw [statusForGame_files]
                  exact .none
                · rw [statusForGame_files]
                  exact writeManagedConfig_effect hcall

theorem removeManagedConfig_effect :
    FileEffect call s.files (removeManagedConfig io titleId s).files := by
  unfold removeManagedConfig
  by_cases hroot : io.rootReady = false
  · rw [if_pos hroot]
    exact .none
  rw [if_neg hroot]
  cases hfile : s.files (configName titleId) with
  | none => exact .none
  | some existing =>
      dsimp only
      split
      · rename_i hmanaged
        apply FileEffect.managed
        intro other hother
        rw [hfile] at hother
        obtain rfl := Option.some.inj hother
        exact hmanaged.2.1
      · exact .none

theorem setRecommendedSettingsEnabled_effect {title : Option TitleId} {enabled : Bool} :
    FileEffect call s.files (setRecommendedSettingsEnabled platform io title enabled s).files := by
  unfold setRecommendedSettingsEnabled
  cases title with
  | none =>
      dsimp only
      rw [statusForGame_files]
      exact .none
  | some titleId =>
      dsimp only
      rw [statusForGame_files]
      cases enabled with
      | true =>
          rw [if_pos rfl]
          exact applyRecommendedConfig_effect (s := { s with
            disabled := fun other => if other = titleId then !true else s.disabled other }) nofun
      | false =>
          exact removeManagedConfig_effect (s := { s with
            disabled := fun other => if other = titleId then !false else s.disabled other })

theorem ite_files {condition : Prop} [Decidable condition] {left right : State}
    (hleft : left.files = files) (hright : right.files = files) :
    (if condition then left else right).files = files := by
  split
  · exact hleft
  · exact hright

theorem ensureDatabaseExported_files : (ensureDatabaseExported platform io s).files = s.files := by
  unfold ensureDatabaseExported
  split
  · exact ite_files (ite_files (setLocalDatabase_files ..) (setLocalDatabase_files ..)) rfl
  · rfl

theorem refreshLocalCache_files {response : Response} :
    (refreshLocalCache platform io response s).files = s.files := by
  unfold refreshLocalCache
  cases response with
  | failed => rw [statusForGame_files, loadDatabase_files]
  | unsuccessful => exact loadDatabase_files
  | body text =>
      have hstored :=
        (setLocalDatabase_files io text (loadDatabase platform io s).2).trans loadDatabase_files
      dsimp only
      cases parseDatabase platform text .localCache with
      | none => rw [statusForGame_files, loadDatabase_files]
      | some remote =>
          apply ite_files
          · exact loadDatabase_files
          · apply ite_files
            · exact hstored
            · rw [statusForGame_files]
              exact hstored

theorem step_effect (platform : Platform) (s : State) (call : Call) (io : Io) :
    FileEffect call s.files (step platform s (call, io)).files := by
  cases call with
  | setRecommendedSettingsEnabled title enabled => exact setRecommendedSettingsEnabled_effect
  | applyRecommendedConfig title => exact applyRecommendedConfig_effect nofun
  | replaceCustomWithRecommendedConfig title => exact applyRecommendedConfig_effect (fun _ => rfl)
  | refreshLocalCache response =>
      have h : (step platform s (.refreshLocalCache response, io)).files = s.files :=
        refreshLocalCache_files
      rw [h]
      exact .none
  | ensureDatabaseExported =>
      have h : (step platform s (.ensureDatabaseExported, io)).files = s.files :=
        ensureDatabaseExported_files
      rw [h]
      exact .none
  | userEdit titleId text => exact .edit titleId text rfl

@[simp] theorem loadDatabase_disabled :
    (loadDatabase platform io s).2.disabled = s.disabled := by
  unfold loadDatabase
  cases s.cachedDatabase <;> rfl

-- A platform with one bundled profile, a title of it, and a user text for its config file.
def bundledPlatform : Platform where
  jsonObject _ := some { returnCode := 0, games := some [], timestamp := 1 }
  bundledText := some []
  isThorTarget := true

def userText : Text := "Core:\n".toList

def editedState : State where
  files := setFile (fun _ => none) (configName eternalSonata) (some userText)
  disabled _ := false
  cachedDatabase := none
  localDatabase _ := none

end Rpcsx.GameSettings
