import Rpcsx.GameSettings.Theorems

namespace Rpcsx.GameSettings

open Data Data.Text

-- The errors a status may carry; the message of an exception is left out.
inductive StatusError where
  | cacheNotLoaded
  | rootNotReady
  | exception
deriving DecidableEq, Repr

structure Status where
  titleId : Option TitleId
  hasProfile : Bool
  enabled : Bool
  applied : Bool
  customConfigPresent : Bool
  configPath : Option Text
  databaseTimestamp : Option Int
  databaseSource : Option DatabaseSource
  databaseProfileCount : Option Nat
  managedConfigStale : Bool := false
  error : Option StatusError := none
deriving DecidableEq

-- Only ASCII digits count here.
def toLongOrNull (text : Text) : Option Int :=
  let magnitude (digits : Text) : Option Int :=
    if digits ≠ [] ∧ digits.all Char.isDigit then some (Nat.ofDigitChars 10 digits 0) else none
  let value :=
    match text with
    | '-' :: digits => (magnitude digits).map (- ·)
    | '+' :: digits => magnitude digits
    | digits => magnitude digits
  value.filter fun value => -2 ^ 63 ≤ value ∧ value < 2 ^ 63

def managedConfigTimestamp (configText : Option Text) : Option Int :=
  match configText with
  | none => none
  | some text =>
      if isBlank text then none
      else
        match (lines text).find? (timestampHeader.isPrefixOf ·) with
        | none => none
        | some line => toLongOrNull (trim isWhitespace (line.drop timestampHeader.length))

variable (platform : Platform)

-- What statusForGame returns. It throws when the config file is there and cannot be read.
def gameStatus (io : Io) (title : Option TitleId) (s : State) : Option Status :=
  let database := (loadDatabase platform io s).1
  match title with
  | none => some {
      titleId := none, hasProfile := false, enabled := false, applied := false,
      customConfigPresent := false, configPath := none,
      databaseTimestamp := database.map Database.timestamp,
      databaseSource := database.map Database.source,
      databaseProfileCount := database.map fun database => database.profiles.length }
  | some titleId =>
      let profileConfig := database.bind fun database => database.profiles.lookup titleId.text
      let hasProfile := profileConfig.isSome
      let configText := if io.rootReady then s.files (configName titleId) else none
      if configText.isSome ∧ io.readable = false then none
      else
        let managed := configText.any isManaged
        let managedTimestamp := managedConfigTimestamp configText
        let expectedManagedConfig := database.bind fun database =>
          profileConfig.map (buildManagedConfig platform titleId database.timestamp)
        let timestampStale : Bool := database.any fun database =>
          managedTimestamp.any (· ≠ database.timestamp)
        let contentStale : Bool := expectedManagedConfig.isSome ∧ configText ≠ expectedManagedConfig
        let managedStale := managed && (timestampStale || contentStale)
        let custom := configText.isSome && !managed
        some {
          titleId := some titleId
          hasProfile := hasProfile
          enabled := hasProfile && !s.disabled titleId && !custom
          applied := hasProfile && managed && !managedStale
          customConfigPresent := custom
          configPath := if io.rootReady then some (configName titleId) else none
          databaseTimestamp := database.map Database.timestamp
          databaseSource := database.map Database.source
          databaseProfileCount := database.map fun database => database.profiles.length
          managedConfigStale := managedStale }

-- Whether the part of applyRecommendedConfig inside runCatching gets to its last statusForGame.
def managedConfigDone (io : Io) (titleId : TitleId) (body : Text) (replaceCustomConfig : Bool)
    (s : State) : Bool :=
  match s.files (configName titleId) with
  | none => (writeText io.written (configName titleId) body s.files).2
  | some existing =>
      if io.readable = false then false
      else if isManaged existing = false then
        if replaceCustomConfig = false then true
        else
          let (files, copied) := backupCustomConfig io titleId existing s.files
          copied && (writeText io.written (configName titleId) body files).2
      else if existing = body then true
      else (writeText io.written (configName titleId) body s.files).2

-- What applyRecommendedConfig returns, none when it throws. A statusForGame that throws inside
-- runCatching throws again behind it.
def applyRecommendedConfigStatus (io : Io) (title : Option TitleId) (replaceCustomConfig : Bool)
    (s : State) : Option Status :=
  let failed (error : StatusError) (status : Option Status) : Option Status :=
    status.map fun status => { status with error := some error }
  match title with
  | none => gameStatus platform io none s
  | some titleId =>
      match loadDatabase platform io s with
      | (none, s) => failed .cacheNotLoaded (gameStatus platform io (some titleId) s)
      | (some database, s) =>
          match database.profiles.lookup titleId.text with
          | none => gameStatus platform io (some titleId) s
          | some config =>
              if s.disabled titleId then gameStatus platform io (some titleId) s
              else if io.rootReady = false then
                failed .rootNotReady (gameStatus platform io (some titleId) s)
              else
                let body := buildManagedConfig platform titleId database.timestamp config
                let status := gameStatus platform io (some titleId)
                  (writeManagedConfig io titleId body replaceCustomConfig s)
                if managedConfigDone io titleId body replaceCustomConfig s then status
                else failed .exception status

def replaceCustomWithRecommendedConfig (io : Io) (titleId : TitleId) (s : State) : Option Status :=
  applyRecommendedConfigStatus platform io (some titleId) true s

section Body

variable {platform : Platform} {titleId : TitleId} {timestamp : Int} {config : Text}

theorem decimalText_eq (number : Int) : decimalText number =
    if 0 ≤ number then Nat.toDigits 10 number.toNat
    else '-' :: Nat.toDigits 10 (-number).toNat := by
  rw [decimalText, Int.toString_eq_repr, Int.repr_eq_if]
  split
  · exact Nat.toList_repr
  · rw [String.toList_append, Nat.toList_repr]
    rfl

theorem isDigit_of_mem_toDigits {number : Nat} {c : Char} (h : c ∈ Nat.toDigits 10 number) :
    c.isDigit :=
  Nat.isDigit_of_mem_toDigits (by decide) (by decide) h

theorem toLongOrNull_decimalText (number : Int) :
    toLongOrNull (decimalText number) = some number ∨ toLongOrNull (decimalText number) = none := by
  have hfilter (p : Int → Bool) : (some number).filter p = some number ∨
      (some number).filter p = none := by
    cases hp : p number with
    | true => exact .inl (by simp [Option.filter, hp])
    | false => exact .inr (by simp [Option.filter, hp])
  have hdigits (m : Nat) : Nat.toDigits 10 m ≠ [] ∧ (Nat.toDigits 10 m).all Char.isDigit :=
    ⟨Nat.toDigits_ne_nil, List.all_eq_true.mpr fun c hc => isDigit_of_mem_toDigits hc⟩
  have hvalue (m : Nat) : Nat.ofDigitChars 10 (Nat.toDigits 10 m) 0 = m :=
    Nat.ofDigitChars_ten_toDigits
  rw [decimalText_eq]
  by_cases hnum : 0 ≤ number
  · rw [if_pos hnum]
    have hstart : ∀ c rest, Nat.toDigits 10 number.toNat = c :: rest → c ≠ '-' ∧ c ≠ '+' := by
      intro c rest hc
      have hdigit : c.isDigit := isDigit_of_mem_toDigits (hc ▸ List.mem_cons_self)
      constructor
      · rintro rfl
        exact absurd hdigit (by decide)
      · rintro rfl
        exact absurd hdigit (by decide)
    unfold toLongOrNull
    dsimp only
    split
    · rename_i hc
      exact absurd rfl (hstart _ _ hc).1
    · rename_i hc
      exact absurd rfl (hstart _ _ hc).2
    · rw [if_pos (hdigits _), hvalue, Int.toNat_of_nonneg hnum]
      exact hfilter _
  · rw [if_neg hnum]
    unfold toLongOrNull
    dsimp only
    split
    · rename_i hc
      obtain ⟨-, rfl⟩ := List.cons.inj hc
      rw [if_pos (hdigits _), hvalue, Option.map_some, Int.toNat_of_nonneg (by omega), Int.neg_neg]
      exact hfilter _
    · rename_i hc
      exact absurd (List.cons.inj hc).1 (by decide)
    · rename_i hminus _
      exact absurd rfl (hminus _)

theorem not_isWhitespace_decimalText {number : Int} {c : Char} (h : c ∈ decimalText number) :
    isWhitespace c = false := by
  have hdigit (hd : c.isDigit) : isWhitespace c = false := by
    simp only [Char.isDigit, Bool.and_eq_true, decide_eq_true_eq] at hd
    have hlow : 48 ≤ c.toNat := UInt32.le_iff_toNat_le.mp hd.1
    have hhigh : c.toNat ≤ 57 := UInt32.le_iff_toNat_le.mp hd.2
    simp only [isWhitespace, Bool.or_eq_false_iff, Bool.and_eq_false_iff, decide_eq_false_iff_not,
      beq_eq_false_iff_ne]
    omega
  rw [decimalText_eq] at h
  split at h
  · exact hdigit (isDigit_of_mem_toDigits h)
  · rcases List.mem_cons.mp h with rfl | h
    · decide
    · exact hdigit (isDigit_of_mem_toDigits h)

theorem trim_decimalText (number : Int) :
    trim isWhitespace (decimalText number) = decimalText number := by
  have hend : trimEnd isWhitespace (decimalText number) = decimalText number := by
    apply List.rdropWhile_eq_self_iff.mpr
    intro hne
    rw [not_isWhitespace_decimalText (List.getLast_mem hne)]
    decide
  have hstart : trimStart isWhitespace (decimalText number) = decimalText number := by
    rw [trimStart]
    cases htext : decimalText number with
    | nil => rfl
    | cons c rest =>
        have hc : c ∈ decimalText number := by
          rw [htext]
          exact List.mem_cons_self
        exact List.dropWhile_cons_of_neg (by simp [not_isWhitespace_decimalText hc])
  rw [trim, hstart, hend]

-- The header of a managed config, line by line.
theorem buildManagedConfig_eq : buildManagedConfig platform titleId timestamp config =
    managedHeader ++ '\n' :: ("# Source: ".toList ++ sourceUrl ++ '\n' ::
      (timestampHeader ++ decimalText timestamp ++ '\n' :: ("# Title ID: ".toList ++ titleId.text ++
        '\n' :: (sanitizeThorManagedConfig platform (trimEnd isWhitespace config) ++ ['\n'])))) := by
  unfold buildManagedConfig
  simp only [List.append_assoc, List.cons_append, List.nil_append]

theorem isManaged_buildManagedConfig :
    isManaged (buildManagedConfig platform titleId timestamp config) = true := by
  rw [isManaged, buildManagedConfig_eq, List.isPrefixOf_iff_prefix]
  exact List.prefix_append _ _

-- The first line with the header of the timestamp is the one written for it.
theorem managedConfigTimestamp_build :
    managedConfigTimestamp (some (buildManagedConfig platform titleId timestamp config)) =
      toLongOrNull (decimalText timestamp) := by
  have hline : ∀ line : Text, (line.all fun c => decide (c ≠ '\n' ∧ c ≠ '\r')) = true →
      ∀ c ∈ line, c ≠ '\n' ∧ c ≠ '\r' := by
    intro line hall c hc
    exact of_decide_eq_true (List.all_eq_true.mp hall c hc)
  have hheader : ∀ c ∈ managedHeader, c ≠ '\n' ∧ c ≠ '\r' := hline _ (by decide)
  have hsource : ∀ c ∈ "# Source: ".toList ++ sourceUrl, c ≠ '\n' ∧ c ≠ '\r' :=
    hline _ (by decide)
  have hstamp : ∀ c ∈ timestampHeader ++ decimalText timestamp, c ≠ '\n' ∧ c ≠ '\r' := by
    intro c hc
    rcases List.mem_append.mp hc with hc | hc
    · exact hline timestampHeader (by decide) c hc
    · have hspace := not_isWhitespace_decimalText hc
      constructor
      · rintro rfl
        exact absurd hspace (by decide)
      · rintro rfl
        exact absurd hspace (by decide)
  have hfirst : timestampHeader.isPrefixOf managedHeader = false := by decide
  have hsecond : timestampHeader.isPrefixOf ("# Source: ".toList ++ sourceUrl) = false := by
    decide
  have hthird : timestampHeader.isPrefixOf (timestampHeader ++ decimalText timestamp) = true :=
    List.isPrefixOf_iff_prefix.mpr (List.prefix_append _ _)
  have hblank : isBlank (buildManagedConfig platform titleId timestamp config) = false := by
    rw [buildManagedConfig_eq, isBlank, List.all_append]
    have hhash : managedHeader.all isWhitespace = false := by decide
    rw [hhash, Bool.false_and]
  unfold managedConfigTimestamp
  dsimp only
  rw [hblank, if_neg (by decide), buildManagedConfig_eq, lines_append hheader, lines_append hsource,
    lines_append hstamp, List.find?_cons_of_neg (by rw [hfirst]; decide),
    List.find?_cons_of_neg (by rw [hsecond]; decide), List.find?_cons_of_pos hthird]
  dsimp only
  rw [List.drop_left, trim_decimalText]

end Body

section Replace

variable {platform : Platform} {io : Io} {s : State} {titleId : TitleId} {body : Text}
  {database : Database} {config : Text}

theorem loadDatabase_cached (h : (loadDatabase platform io s).1 = some database) :
    (loadDatabase platform io s).2.cachedDatabase = some database := by
  unfold loadDatabase at h ⊢
  cases hcached : s.cachedDatabase with
  | none =>
      rw [hcached] at h
      exact h
  | some cached =>
      rw [hcached] at h
      exact hcached.trans h

theorem loadDatabase_of_cached (h : s.cachedDatabase = some database) :
    (loadDatabase platform io s).1 = some database := by
  unfold loadDatabase
  rw [h]

-- Writing a config leaves the database, and a title that is not disabled stays so.
theorem writeManagedConfig_keeps (io : Io) (body : Text) (replaceCustomConfig : Bool)
    (henabled : s.disabled titleId = false) :
    (writeManagedConfig io titleId body replaceCustomConfig s).cachedDatabase = s.cachedDatabase ∧
      (writeManagedConfig io titleId body replaceCustomConfig s).disabled titleId = false := by
  unfold writeManagedConfig
  cases s.files (configName titleId) with
  | none => exact ⟨rfl, henabled⟩
  | some existing =>
      dsimp only
      split
      · exact ⟨rfl, henabled⟩
      · split
        · split
          · exact ⟨rfl, henabled⟩
          · split
            · exact ⟨rfl, henabled⟩
            · split
              · exact ⟨rfl, henabled⟩
              · exact ⟨rfl, if_pos rfl⟩
        · split
          · exact ⟨rfl, henabled⟩
          · exact ⟨rfl, henabled⟩

theorem writeText_done {outcome : Outcome} {name text : Text} {files : Files}
    (h : (writeText outcome name text files).2 = true) :
    (writeText outcome name text files).1 name = some text := by
  rcases writeText_cases outcome name text files with hdone | ⟨hfailed, -⟩
  · rw [hdone]
    exact setFile_self
  · rw [hfailed] at h
    cases h

-- When nothing fails, the config file holds the managed config.
theorem writeManagedConfig_done (hdone : managedConfigDone io titleId body true s = true) :
    (writeManagedConfig io titleId body true s).files (configName titleId) = some body := by
  unfold managedConfigDone at hdone
  unfold writeManagedConfig
  cases hfile : s.files (configName titleId) with
  | none =>
      rw [hfile] at hdone
      exact writeText_done hdone
  | some existing =>
      rw [hfile] at hdone
      dsimp only at hdone ⊢
      by_cases hread : io.readable = false
      · rw [if_pos hread] at hdone
        cases hdone
      rw [if_neg hread] at hdone ⊢
      by_cases hmanaged : isManaged existing = false
      · rw [if_pos hmanaged, if_neg (by decide), Bool.and_eq_true] at hdone
        rw [if_pos hmanaged, if_neg (by decide), if_neg (by simp [hdone.1]),
          if_neg (by simp [hdone.2])]
        exact writeText_done hdone.2
      · rw [if_neg hmanaged] at hdone ⊢
        by_cases hsame : existing = body
        · rw [if_pos hsame, hfile, hsame]
        · rw [if_neg hsame] at hdone ⊢
          exact writeText_done hdone

-- The status of a title whose config file holds the managed config of the loaded database.
theorem gameStatus_managed {status : Status} (hload : (loadDatabase platform io s).1 = some database)
    (hprofile : database.profiles.lookup titleId.text = some config) (hroot : io.rootReady = true)
    (hfile : s.files (configName titleId) =
      some (buildManagedConfig platform titleId database.timestamp config))
    (henabled : s.disabled titleId = false)
    (hstatus : gameStatus platform io (some titleId) s = some status) :
    status.applied = true ∧ status.enabled = true ∧ status.customConfigPresent = false ∧
      status.managedConfigStale = false := by
  have hstale : (managedConfigTimestamp (some (buildManagedConfig platform titleId
      database.timestamp config))).any (· ≠ database.timestamp) = false := by
    rw [managedConfigTimestamp_build]
    rcases toLongOrNull_decimalText database.timestamp with h | h
    · rw [h]
      simp
    · rw [h]
      rfl
  unfold gameStatus at hstatus
  dsimp only at hstatus
  rw [hload, if_pos hroot, hfile] at hstatus
  split at hstatus
  · cases hstatus
  · obtain rfl := Option.some.inj hstatus
    simp only [ne_eq, decide_not] at hstale
    simp [hprofile, isManaged_buildManagedConfig, henabled, hstale]

-- A disabled title is not shown as enabled.
theorem gameStatus_disabled {status : Status} (hdisabled : s.disabled titleId = true)
    (hstatus : gameStatus platform io (some titleId) s = some status) : status.enabled = false := by
  unfold gameStatus at hstatus
  dsimp only at hstatus
  generalize (if io.rootReady then s.files (configName titleId) else none) = configText at hstatus
  split at hstatus
  · cases hstatus
  · obtain rfl := Option.some.inj hstatus
    simp [hdisabled]

end Replace

-- Replacing a custom config without an error ends with the managed config in place exactly when
-- the title was not disabled before.
theorem replaceCustomWithRecommendedConfig_applied_iff (platform : Platform) (io : Io) (s : State)
    (titleId : TitleId) (database : Database) (config : Text) (status : Status)
    (hload : (loadDatabase platform io s).1 = some database)
    (hprofile : database.profiles.lookup titleId.text = some config)
    (hstatus : replaceCustomWithRecommendedConfig platform io titleId s = some status)
    (hdone : status.error = none) :
    (status.applied = true ∧ status.enabled = true ∧ status.customConfigPresent = false ∧
      status.managedConfigStale = false) ↔ s.disabled titleId = false := by
  have hcached := loadDatabase_cached hload
  have hdisabled : (loadDatabase platform io s).2.disabled = s.disabled := loadDatabase_disabled
  unfold replaceCustomWithRecommendedConfig applyRecommendedConfigStatus at hstatus
  rcases hpair : loadDatabase platform io s with ⟨loaded, s'⟩
  rw [hpair] at hload hcached hdisabled hstatus
  obtain rfl : loaded = some database := hload
  dsimp only at hcached hdisabled hstatus
  rw [hprofile] at hstatus
  dsimp only at hstatus
  rw [← hdisabled]
  by_cases hoff : s'.disabled titleId = true
  · rw [if_pos hoff] at hstatus
    rw [gameStatus_disabled hoff hstatus, hoff]
    simp
  · have henabled : s'.disabled titleId = false := by simpa using hoff
    rw [if_neg hoff] at hstatus
    refine ⟨fun _ => henabled, fun _ => ?_⟩
    by_cases hroot : io.rootReady = false
    · rw [if_pos hroot] at hstatus
      obtain ⟨found, -, rfl⟩ := Option.map_eq_some_iff.mp hstatus
      cases hdone
    rw [if_neg hroot] at hstatus
    split at hstatus
    · rename_i hwritten
      obtain ⟨hkept, henabled'⟩ := writeManagedConfig_keeps io
        (buildManagedConfig platform titleId database.timestamp config) true henabled
      exact gameStatus_managed (loadDatabase_of_cached (hkept.trans hcached)) hprofile
        (by simpa using hroot) (writeManagedConfig_done hwritten) henabled' hstatus
    · obtain ⟨found, -, rfl⟩ := Option.map_eq_some_iff.mp hstatus
      cases hdone

theorem replaceCustomWithRecommendedConfig_applied_editedState :
    ∃ status, replaceCustomWithRecommendedConfig bundledPlatform {} eternalSonata editedState =
      some status ∧ status.applied = true ∧ status.enabled = true ∧
        status.customConfigPresent = false ∧ status.managedConfigStale = false := by
  have hload : ((loadDatabase bundledPlatform {} editedState).1.bind fun database =>
      database.profiles.lookup eternalSonata.text).isSome = true := by decide
  obtain ⟨config, hconfig⟩ := Option.isSome_iff_exists.mp hload
  obtain ⟨database, hdatabase, hprofile⟩ := Option.bind_eq_some_iff.mp hconfig
  have hstatus : (replaceCustomWithRecommendedConfig bundledPlatform {} eternalSonata
      editedState).any (fun status => status.error = none) = true := by decide
  obtain ⟨status, hsome, herror⟩ := (Option.any_eq_true _ _).mp hstatus
  exact ⟨status, hsome, (replaceCustomWithRecommendedConfig_applied_iff bundledPlatform {}
    editedState eternalSonata database config status hdatabase hprofile hsome
    (by simpa using herror)).mpr rfl⟩

-- The settings of the title are switched off while its config file holds a user text.
def disabledState : State := { editedState with disabled := fun _ => true }

theorem replaceCustomWithRecommendedConfig_disabledState :
    ((loadDatabase bundledPlatform {} disabledState).1.bind fun database =>
      database.profiles.lookup eternalSonata.text).isSome = true ∧
    (replaceCustomWithRecommendedConfig bundledPlatform {} eternalSonata disabledState).map
      (fun status => (status.error, status.applied, status.enabled, status.customConfigPresent)) =
        some (none, false, false, true) := by
  decide

end Rpcsx.GameSettings
