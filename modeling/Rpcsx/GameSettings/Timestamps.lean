import Rpcsx.GameSettings.Theorems

namespace Rpcsx.GameSettings

open Data Data.Text

variable (platform : Platform) (rootReady : Bool)

-- What loadDatabase returns to a call under the given root directory.
def loadedDatabase (s : State) : Option Database :=
  (loadDatabase platform { rootReady := rootReady } s).1

-- What it would read when nothing is in memory.
def storedDatabase (s : State) : Option Database :=
  (readLocalDatabase platform { rootReady := rootReady } s).or (readBundledDatabase platform)

-- The copy in memory is the one that would be read.
def Consistent (s : State) : Prop :=
  ∀ database, s.cachedDatabase = some database → storedDatabase platform rootReady s = some database

-- The root directory stays, and the write of the local cache is whole or not done at all.
structure Settled (io : Io) : Prop where
  root : io.rootReady = rootReady
  whole : ∀ length, io.written ≠ .cutOff length

-- What was loaded stays loaded, or gives way to something that is not older.
def NotOlder (old new : Option Database) : Prop :=
  ∀ database, old = some database →
    ∃ newer, new = some newer ∧ database.timestamp ≤ newer.timestamp

theorem NotOlder.refl (database : Option Database) : NotOlder database database :=
  fun found h => ⟨found, h, Int.le_refl _⟩

theorem NotOlder.trans {first second third : Option Database} (h₁ : NotOlder first second)
    (h₂ : NotOlder second third) : NotOlder first third := by
  intro database h
  obtain ⟨middle, hmiddle, hle⟩ := h₁ database h
  obtain ⟨last, hlast, hle'⟩ := h₂ middle hmiddle
  exact ⟨last, hlast, Int.le_trans hle hle'⟩

variable {platform rootReady} {s s' s'' : State} {io : Io}

theorem readLocalDatabase_root (hroot : io.rootReady = rootReady) (s : State) :
    readLocalDatabase platform io s =
      readLocalDatabase platform { rootReady := rootReady } s := by
  unfold readLocalDatabase
  rw [hroot]

theorem loadDatabase_root (hroot : io.rootReady = rootReady) (s : State) :
    loadDatabase platform io s = loadDatabase platform { rootReady := rootReady } s := by
  unfold loadDatabase
  rw [readLocalDatabase_root hroot]

theorem Consistent.loaded (h : Consistent platform rootReady s) :
    loadedDatabase platform rootReady s = storedDatabase platform rootReady s := by
  unfold loadedDatabase loadDatabase
  cases hcached : s.cachedDatabase with
  | none => rfl
  | some database => exact (h database hcached).symm

-- A step that stores nothing: it may load the database.
structure Loads (platform : Platform) (rootReady : Bool) (s s' : State) : Prop where
  stored : s'.localDatabase = s.localDatabase
  cached : s'.cachedDatabase = s.cachedDatabase ∨
    s'.cachedDatabase = loadedDatabase platform rootReady s

theorem storedDatabase_congr (h : s'.localDatabase = s.localDatabase) :
    storedDatabase platform rootReady s' = storedDatabase platform rootReady s := by
  unfold storedDatabase readLocalDatabase
  rw [h]

theorem Loads.consistent (h : Loads platform rootReady s s') (hs : Consistent platform rootReady s) :
    Consistent platform rootReady s' := by
  intro database hcached
  rw [storedDatabase_congr h.stored]
  rcases h.cached with hsame | hload
  · exact hs database (hsame ▸ hcached)
  · rw [← hs.loaded, ← hload, hcached]

theorem Loads.loaded (h : Loads platform rootReady s s') (hs : Consistent platform rootReady s) :
    loadedDatabase platform rootReady s' = loadedDatabase platform rootReady s := by
  rw [(h.consistent hs).loaded, hs.loaded, storedDatabase_congr h.stored]

theorem Loads.refl (s : State) : Loads platform rootReady s s := ⟨rfl, .inl rfl⟩

theorem Loads.load (hroot : io.rootReady = rootReady) (s : State) :
    Loads platform rootReady s (loadDatabase platform io s).2 := by
  rw [loadDatabase_root hroot]
  unfold loadDatabase
  cases hcached : s.cachedDatabase with
  | some database => exact .refl s
  | none =>
      refine ⟨rfl, .inr ?_⟩
      unfold loadedDatabase loadDatabase
      rw [hcached]

theorem loadedDatabase_congr (hstored : s'.localDatabase = s.localDatabase)
    (hcached : s'.cachedDatabase = s.cachedDatabase) :
    loadedDatabase platform rootReady s' = loadedDatabase platform rootReady s := by
  unfold loadedDatabase loadDatabase readLocalDatabase
  rw [hcached, hstored]
  cases s.cachedDatabase <;> rfl

-- Loading again gives the same.
theorem loadedDatabase_of_loaded (hstored : s'.localDatabase = s.localDatabase)
    (hcached : s'.cachedDatabase = loadedDatabase platform rootReady s) :
    loadedDatabase platform rootReady s' = loadedDatabase platform rootReady s := by
  cases hload : loadedDatabase platform rootReady s with
  | some database =>
      rw [hload] at hcached
      unfold loadedDatabase loadDatabase
      rw [hcached]
  | none =>
      have hnone : s.cachedDatabase = none := by
        unfold loadedDatabase loadDatabase at hload
        cases h : s.cachedDatabase with
        | none => rfl
        | some database =>
            rw [h] at hload
            cases hload
      rw [← hload]
      exact loadedDatabase_congr hstored (hcached.trans (hload.trans hnone.symm))

theorem Loads.trans (h₁ : Loads platform rootReady s s') (h₂ : Loads platform rootReady s' s'') :
    Loads platform rootReady s s'' := by
  refine ⟨h₂.stored.trans h₁.stored, ?_⟩
  rcases h₂.cached with h | h
  · rw [h]
    exact h₁.cached
  · rw [h]
    rcases h₁.cached with h' | h'
    · exact .inr (loadedDatabase_congr h₁.stored h')
    · exact .inr (loadedDatabase_of_loaded h₁.stored h')

section Configs

variable {titleId : TitleId} {title : Option TitleId} {body : Text} {replaceCustomConfig : Bool}

variable (hroot : io.rootReady = rootReady)

include hroot

end Configs

section Database

variable (hio : Settled rootReady io)

include hio

end Database

end Rpcsx.GameSettings
