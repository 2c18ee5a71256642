import Rpcsx.Data.Text
import Mathlib.Data.List.Nodup

namespace Rpcsx.GameRepository

open Data

structure GameInfo where
  path : Text
  name : Option Text := none
  iconPath : Option Text := none
  gameFlags : Int := 0
  titleId : Option Text := none
  sourceUri : Option Text := none
deriving DecidableEq, Repr

inductive GameProgressType where
  | install
  | compile
  | remove
deriving DecidableEq, Repr

structure GameProgress where
  id : Int
  type : GameProgressType
deriving DecidableEq, Repr

structure Game where
  info : GameInfo
  progressList : List GameProgress := []
deriving DecidableEq, Repr

namespace Game

def findProgress (game : Game) (type : GameProgressType) : List GameProgress :=
  game.progressList.filter (·.type = type)

-- InvalidParameterException when there is one of that type.
def addProgress (game : Game) (progress : GameProgress) : Option Game :=
  if game.findProgress progress.type ≠ [] then none
  else some { game with progressList := game.progressList ++ [progress] }

end Game

-- The path of an entry that is being installed.
def placeholderPath : Text := ['$']

-- A Game is an object: the list holds references, and one that is taken from it lives on where it
-- was handed out.
abbrev Ref := Nat

structure Repository where
  objects : Ref → Game
  next : Ref
  games : List Ref

namespace Repository

def path (r : Repository) (ref : Ref) : Text := (r.objects ref).info.path

def setObject (r : Repository) (ref : Ref) (game : Game) : Repository :=
  { r with objects := fun other => if other = ref then game else r.objects other }

-- A new object, put in front of the list.
def addFirst (r : Repository) (game : Game) : Repository :=
  { objects := fun other => if other = r.next then game else r.objects other
    next := r.next + 1
    games := r.next :: r.games }

-- The placeholder of an installation.
def progressEntry (r : Repository) (progressId : Int) : Option Ref :=
  (r.games.filter fun ref => r.path ref = placeholderPath).find? fun ref =>
    ((r.objects ref).findProgress .install).any (·.id = progressId)

def removeProgressEntry (r : Repository) (progressId : Int) : Repository :=
  if 0 ≤ progressId then
    match r.progressEntry progressId with
    | some ref => { r with games := r.games.erase ref }
    | none => r
  else r

-- associateBy: the last game of a path stays in the map.
def existingByPath (r : Repository) : Text → Option Ref :=
  r.games.foldl (fun existing ref path => if path = r.path ref then some ref else existing path)
    fun _ => none

def updateInfo (old new : GameInfo) : GameInfo :=
  { old with
    name := new.name.or old.name
    iconPath := new.iconPath.or old.iconPath
    gameFlags := new.gameFlags
    titleId := new.titleId.or old.titleId
    sourceUri := new.sourceUri.or old.sourceUri }

def withInstall (progressId : Int) (game : Game) : Option Game :=
  if 0 ≤ progressId then game.addProgress ⟨progressId, .install⟩ else some game

-- One round of the loop over the infos: the repository and the map. None when it throws.
def addInfo (progressId : Int) (state : Repository × (Text → Option Ref)) (info : GameInfo) :
    Option (Repository × (Text → Option Ref)) :=
  let (r, existing) := state
  match existing info.path with
  | none => do
      let game ← withInstall progressId ⟨info, []⟩
      return (r.addFirst game, fun path => if path = info.path then some r.next else existing path)
  | some ref => do
      let game := r.objects ref
      let game ← withInstall progressId { game with info := updateInfo game.info info }
      return (r.setObject ref game, existing)

def add (r : Repository) (gameInfos : List GameInfo) (progressId : Int) : Option Repository :=
  let r := r.removeProgressEntry progressId
  (gameInfos.foldlM (addInfo progressId) (r, r.existingByPath)).map Prod.fst

def onBoot (r : Repository) (game : Ref) : Repository :=
  if r.games.head? ≠ some game then { r with games := game :: r.games.erase game } else r

def createGameInstallEntry (r : Repository) (progressId : Int) : Option Repository :=
  (Game.addProgress ⟨{ path := placeholderPath }, []⟩ ⟨progressId, .install⟩).map r.addFirst

def clearProgress (r : Repository) (progressId : Int) : Repository :=
  let objects ref :=
    if ref ∈ r.games then
      { r.objects ref with
        progressList := (r.objects ref).progressList.filter (·.id ≠ progressId) }
    else r.objects ref
  { r with
    objects := objects
    games := r.games.filter fun ref =>
      ¬((objects ref).info.path = placeholderPath ∧ (objects ref).progressList = []) }

def remove (r : Repository) (game : Ref) : Repository := { r with games := r.games.erase game }

end Repository

-- What the main thread runs, one after the other.
inductive Operation where
  | add (gameInfos : List GameInfo) (progressId : Int)
  | createGameInstallEntry (progressId : Int)
  | clearProgress (progressId : Int)
  | onBoot (game : Ref)
  | remove (game : Ref)
deriving DecidableEq, Repr

def step (r : Repository) : Operation → Option Repository
  | .add gameInfos progressId => r.add gameInfos progressId
  | .createGameInstallEntry progressId => r.createGameInstallEntry progressId
  | .clearProgress progressId => some (r.clearProgress progressId)
  | .onBoot game => some (r.onBoot game)
  | .remove game => some (r.remove game)

-- None when one of the operations throws.
def run (r : Repository) (operations : List Operation) : Option Repository :=
  operations.foldlM step r

end Rpcsx.GameRepository

namespace Rpcsx.GameRepository

open Data Repository

-- Games of one path are one game, placeholders apart.
structure WellFormed (r : Repository) : Prop where
  allocated : ∀ ref ∈ r.games, ref < r.next
  nodup : r.games.Nodup
  distinct : ∀ a ∈ r.games, ∀ b ∈ r.games, r.path a = r.path b → r.path a ≠ placeholderPath → a = b

def DistinctPaths (r : Repository) : Prop :=
  ((r.games.map r.path).filter (· ≠ placeholderPath)).Nodup

theorem WellFormed.distinctPaths {r : Repository} (h : WellFormed r) : DistinctPaths r := by
  unfold DistinctPaths
  rw [List.filter_map]
  apply List.Nodup.map_on
  · intro a ha b hb heq
    obtain ⟨ha, hne⟩ := List.mem_filter.mp ha
    exact h.distinct a ha b (List.mem_filter.mp hb).1 heq (by simpa using hne)
  · exact h.nodup.filter _

section Updates

variable {r : Repository}

theorem WellFormed.sublist (h : WellFormed r) {games : List Ref} (hsub : games.Sublist r.games) :
    WellFormed { r with games := games } :=
  ⟨fun ref href => h.allocated ref (hsub.subset href), h.nodup.sublist hsub,
    fun a ha b hb => h.distinct a (hsub.subset ha) b (hsub.subset hb)⟩

@[simp] theorem addFirst_next (game : Game) : (r.addFirst game).objects r.next = game := if_pos rfl

theorem addFirst_old (game : Game) {ref : Ref} (h : ref < r.next) :
    (r.addFirst game).objects ref = r.objects ref := if_neg (Nat.ne_of_lt h)

theorem WellFormed.addFirst (h : WellFormed r) {game : Game}
    (hnew : game.info.path ≠ placeholderPath → ∀ ref ∈ r.games, r.path ref ≠ game.info.path) :
    WellFormed (r.addFirst game) := by
  have hpath : (r.addFirst game).path r.next = game.info.path := by
    rw [Repository.path, addFirst_next]
  have hold (ref : Ref) (href : ref ∈ r.games) : (r.addFirst game).path ref = r.path ref := by
    rw [Repository.path, addFirst_old game (h.allocated ref href), Repository.path]
  constructor
  · intro ref href
    rcases List.mem_cons.mp href with rfl | href
    · exact Nat.lt_succ_self _
    · exact Nat.lt_succ_of_lt (h.allocated ref href)
  · apply List.nodup_cons.mpr ⟨fun hmem => ?_, h.nodup⟩
    exact Nat.lt_irrefl _ (h.allocated _ hmem)
  · intro a ha b hb heq hne
    rcases List.mem_cons.mp ha with rfl | ha
    · rcases List.mem_cons.mp hb with rfl | hb
      · rfl
      · rw [hpath, hold b hb] at heq
        rw [hpath] at hne
        exact absurd heq.symm (hnew hne b hb)
    · rcases List.mem_cons.mp hb with rfl | hb
      · rw [hpath, hold a ha] at heq
        rw [hold a ha, heq] at hne
        exact absurd heq (hnew hne a ha)
      · rw [hold a ha, hold b hb] at heq
        rw [hold a ha] at hne
        exact h.distinct a ha b hb heq hne

theorem setObject_path {ref : Ref} {game : Game} (h : game.info.path = r.path ref) (other : Ref) :
    (r.setObject ref game).path other = r.path other := by
  unfold Repository.path setObject
  dsimp only
  split
  · rename_i heq
    rw [heq]
    exact h
  · rfl

-- Only paths and places in the list count.
theorem WellFormed.congr (h : WellFormed r) {r' : Repository} (hgames : r'.games = r.games)
    (hnext : r'.next = r.next) (hpath : ∀ ref, r'.path ref = r.path ref) : WellFormed r' := by
  constructor
  · rw [hgames, hnext]
    exact h.allocated
  · rw [hgames]
    exact h.nodup
  · intro a ha b hb
    rw [hgames] at ha hb
    rw [hpath, hpath]
    exact h.distinct a ha b hb

theorem WellFormed.objects (h : WellFormed r) {objects : Ref → Game}
    (hpath : ∀ ref, (objects ref).info.path = r.path ref) :
    WellFormed { r with objects := objects } := h.congr rfl rfl hpath

end Updates

-- The map holds a game of the list for every path that is in it.
structure Maps (r : Repository) (existing : Text → Option Ref) : Prop where
  found : ∀ path ref, existing path = some ref → ref ∈ r.games ∧ r.path ref = path
  absent : ∀ path, existing path = none → ∀ ref ∈ r.games, r.path ref ≠ path

theorem existingByPath_maps (r : Repository) : Maps r r.existingByPath := by
  have hfold : ∀ (games : List Ref) (before : List Ref) (existing : Text → Option Ref),
      (∀ path ref, existing path = some ref → ref ∈ before ∧ r.path ref = path) →
      (∀ path, existing path = none → ∀ ref ∈ before, r.path ref ≠ path) →
      let last := games.foldl (fun existing ref path =>
        if path = r.path ref then some ref else existing path) existing
      (∀ path ref, last path = some ref → ref ∈ before ++ games ∧ r.path ref = path) ∧
        ∀ path, last path = none → ∀ ref ∈ before ++ games, r.path ref ≠ path := by
    intro games
    induction games with
    | nil =>
        intro before existing hfound habsent
        rw [List.append_nil]
        exact ⟨hfound, habsent⟩
    | cons first games ih =>
        intro before existing hfound habsent
        have hsplit : before ++ first :: games = (before ++ [first]) ++ games := by simp
        rw [hsplit]
        apply ih
        · intro path ref hsome
          dsimp only at hsome
          split at hsome
          · rename_i heq
            cases hsome
            exact ⟨by simp, heq.symm⟩
          · obtain ⟨hmem, hpath⟩ := hfound path ref hsome
            exact ⟨by simp [hmem], hpath⟩
        · intro path hnone ref href
          dsimp only at hnone
          split at hnone
          · cases hnone
          · rename_i hne
            rcases List.mem_append.mp href with href | href
            · exact habsent path hnone ref href
            · rw [List.mem_singleton.mp href]
              exact Ne.symm hne
  obtain ⟨hfound, habsent⟩ := hfold r.games [] (fun _ => none) nofun (by simp)
  exact ⟨hfound, habsent⟩

section Add

variable {r r' : Repository} {existing existing' : Text → Option Ref} {progressId : Int}
  {info : GameInfo}

def NoInstall (game : Game) : Prop := game.findProgress .install = []

-- The game that the map holds for a path has no installation going on.
def Free (r : Repository) (existing : Text → Option Ref) (path : Text) : Prop :=
  ∀ ref, existing path = some ref → NoInstall (r.objects ref)

theorem withInstall_eq_some {game game' : Game} (h : withInstall progressId game = some game') :
    game'.info = game.info ∧ (0 ≤ progressId → NoInstall game ∧ ¬NoInstall game') := by
  unfold withInstall at h
  split at h
  · unfold Game.addProgress at h
    split at h
    · cases h
    · rename_i hfree
      cases h
      refine ⟨rfl, fun _ => ⟨by simpa [NoInstall] using hfree, ?_⟩⟩
      simp [NoInstall, Game.findProgress]
  · rename_i hneg
    cases h
    exact ⟨rfl, fun hid => absurd hid hneg⟩

theorem withInstall_of_free (progressId : Int) {game : Game}
    (h : 0 ≤ progressId → NoInstall game) :
    ∃ game', withInstall progressId game = some game' := by
  unfold withInstall
  split
  · rename_i hid
    unfold Game.addProgress
    rw [if_neg (by simpa [NoInstall] using h hid)]
    exact ⟨_, rfl⟩
  · exact ⟨_, rfl⟩

-- What a round does: a new game in front for a path that is not in the map, else the game of the
-- map is changed, but for its path.
theorem addInfo_cases {state : Repository × (Text → Option Ref)}
    (h : addInfo progressId (r, existing) info = some state) :
    (existing info.path = none ∧ ∃ game, withInstall progressId ⟨info, []⟩ = some game ∧
      state = (r.addFirst game,
        fun path => if path = info.path then some r.next else existing path)) ∨
    (∃ ref game, existing info.path = some ref ∧ withInstall progressId
        { r.objects ref with info := updateInfo (r.objects ref).info info } = some game ∧
      state = (r.setObject ref game, existing)) := by
  unfold addInfo at h
  dsimp only at h
  split at h
  · rename_i hnone
    obtain ⟨game, hgame, h⟩ := Option.bind_eq_some_iff.mp h
    cases h
    exact .inl ⟨hnone, game, hgame, rfl⟩
  · rename_i ref hsome
    obtain ⟨game, hgame, h⟩ := Option.bind_eq_some_iff.mp h
    cases h
    exact .inr ⟨ref, game, hsome, hgame, rfl⟩

theorem addInfo_isSome (hfree : 0 ≤ progressId → Free r existing info.path) :
    ∃ state, addInfo progressId (r, existing) info = some state := by
  unfold addInfo
  dsimp only
  split
  · have hnew : NoInstall ⟨info, []⟩ := rfl
    obtain ⟨game, hgame⟩ := withInstall_of_free progressId fun _ => hnew
    rw [hgame]
    exact ⟨_, rfl⟩
  · rename_i ref hsome
    have hgame : 0 ≤ progressId →
        NoInstall { r.objects ref with info := updateInfo (r.objects ref).info info } :=
      fun hid => hfree hid ref hsome
    obtain ⟨game, hgame⟩ := withInstall_of_free progressId hgame
    rw [hgame]
    exact ⟨_, rfl⟩

theorem addInfo_wellFormed (h : WellFormed r) (hmap : Maps r existing)
    (hstep : addInfo progressId (r, existing) info = some (r', existing')) :
    WellFormed r' ∧ Maps r' existing' := by
  rcases addInfo_cases hstep with ⟨hnone, game, hgame, hstate⟩ | ⟨ref, game, hsome, hgame, hstate⟩
  · cases hstate
    have hinfo : game.info = info := (withInstall_eq_some hgame).1
    have hnext : (r.addFirst game).path r.next = info.path := by
      rw [Repository.path, addFirst_next, hinfo]
    have hold (ref : Ref) (href : ref ∈ r.games) : (r.addFirst game).path ref = r.path ref := by
      rw [Repository.path, addFirst_old game (h.allocated ref href), Repository.path]
    refine ⟨h.addFirst fun _ => ?_, ?_, ?_⟩
    · rw [hinfo]
      exact hmap.absent info.path hnone
    · intro path ref hfound
      split at hfound
      · rename_i hpath
        cases hfound
        exact ⟨List.mem_cons_self, hnext.trans hpath.symm⟩
      · obtain ⟨hmem, hpath⟩ := hmap.found path ref hfound
        exact ⟨List.mem_cons_of_mem _ hmem, (hold ref hmem).trans hpath⟩
    · intro path hpath ref href
      split at hpath
      · cases hpath
      · rename_i hne
        rcases List.mem_cons.mp href with rfl | href
        · rw [hnext]
          exact Ne.symm hne
        · rw [hold ref href]
          exact hmap.absent path hpath ref href
  · cases hstate
    have hpath : game.info.path = r.path ref := by
      rw [(withInstall_eq_some hgame).1]
      rfl
    have hsame := setObject_path hpath
    refine ⟨h.congr rfl rfl hsame, ?_, ?_⟩
    · intro path other hfound
      rw [hsame]
      exact hmap.found path other hfound
    · intro path hnone other hother
      rw [hsame]
      exact hmap.absent path hnone other hother

-- Which paths are free after a round of an installation: not its own, and the others as before.
theorem addInfo_free (h : WellFormed r) (hmap : Maps r existing) (hid : 0 ≤ progressId)
    (hstep : addInfo progressId (r, existing) info = some (r', existing')) :
    Free r existing info.path ∧ ¬Free r' existing' info.path ∧
      ∀ path, path ≠ info.path → (Free r' existing' path ↔ Free r existing path) := by
  rcases addInfo_cases hstep with ⟨hnone, game, hgame, hstate⟩ | ⟨ref, game, hsome, hgame, hstate⟩
  · cases hstate
    obtain ⟨-, hinstall⟩ := withInstall_eq_some hgame
    refine ⟨?_, ?_, ?_⟩
    · intro ref href
      rw [hnone] at href
      cases href
    · intro hfree
      have := hfree r.next (if_pos rfl)
      rw [addFirst_next] at this
      exact (hinstall hid).2 this
    · intro path hne
      unfold Free
      simp only [if_neg hne]
      constructor
      · intro hfree ref href
        have := hfree ref href
        rwa [addFirst_old game (h.allocated ref (hmap.found path ref href).1)] at this
      · intro hfree ref href
        rw [addFirst_old game (h.allocated ref (hmap.found path ref href).1)]
        exact hfree ref href
  · cases hstate
    obtain ⟨-, hinstall⟩ := withInstall_eq_some hgame
    have hset : (r.setObject ref game).objects ref = game := if_pos rfl
    have hother {other : Ref} (hne : other ≠ ref) :
        (r.setObject ref game).objects other = r.objects other := if_neg hne
    have hne {path : Text} {other : Ref} (hpath : path ≠ info.path)
        (hfound : existing path = some other) : other ≠ ref := by
      rintro rfl
      exact hpath ((hmap.found path other hfound).2.symm.trans (hmap.found _ other hsome).2)
    refine ⟨?_, ?_, ?_⟩
    · intro other hfound
      rw [hsome] at hfound
      cases hfound
      exact (hinstall hid).1
    · intro hfree
      have := hfree ref hsome
      rw [hset] at this
      exact (hinstall hid).2 this
    · intro path hpath
      constructor
      · intro hfree other hfound
        have := hfree other hfound
        rwa [hother (hne hpath hfound)] at this
      · intro hfree other hfound
        rw [hother (hne hpath hfound)]
        exact hfree other hfound

-- The loop gets through exactly when no path comes twice and all are free.
theorem addInfos_isSome_iff (progressId : Int) (infos : List GameInfo) (h : WellFormed r) (hmap : Maps r existing) :
    (∃ state, infos.foldlM (addInfo progressId) (r, existing) = some state) ↔
      (0 ≤ progressId → (infos.map GameInfo.path).Nodup ∧
        ∀ info ∈ infos, Free r existing info.path) := by
  induction infos generalizing r existing with
  | nil => exact ⟨fun _ _ => ⟨List.nodup_nil, by simp⟩, fun _ => ⟨_, rfl⟩⟩
  | cons info infos ih =>
      rw [List.foldlM_cons]
      constructor
      · rintro ⟨state, hstate⟩ hid
        obtain ⟨⟨r', existing'⟩, hfirst, hrest⟩ := Option.bind_eq_some_iff.mp hstate
        obtain ⟨h', hmap'⟩ := addInfo_wellFormed h hmap hfirst
        obtain ⟨hfree, htaken, hothers⟩ := addInfo_free h hmap hid hfirst
        obtain ⟨hnodup, hrest⟩ := (ih h' hmap').mp ⟨state, hrest⟩ hid
        have hne (other : GameInfo) (hother : other ∈ infos) : other.path ≠ info.path := by
          intro heq
          exact htaken (heq ▸ hrest other hother)
        refine ⟨?_, ?_⟩
        · rw [List.map_cons, List.nodup_cons]
          refine ⟨fun hmem => ?_, hnodup⟩
          obtain ⟨other, hother, heq⟩ := List.mem_map.mp hmem
          exact hne other hother heq
        · intro other hother
          rcases List.mem_cons.mp hother with rfl | hother
          · exact hfree
          · exact (hothers _ (hne other hother)).mp (hrest other hother)
      · intro hcalm
        obtain ⟨⟨r', existing'⟩, hfirst⟩ := addInfo_isSome
          (fun hid => (hcalm hid).2 info List.mem_cons_self)
        obtain ⟨h', hmap'⟩ := addInfo_wellFormed h hmap hfirst
        rw [hfirst]
        apply (ih h' hmap').mpr
        intro hid
        obtain ⟨hnodup, hall⟩ := hcalm hid
        obtain ⟨-, -, hothers⟩ := addInfo_free h hmap hid hfirst
        rw [List.map_cons, List.nodup_cons] at hnodup
        refine ⟨hnodup.2, fun other hother => ?_⟩
        have hne : other.path ≠ info.path := fun heq =>
          hnodup.1 (heq ▸ List.mem_map_of_mem hother)
        exact (hothers _ hne).mpr (hall other (List.mem_cons_of_mem _ hother))

theorem addInfos_wellFormed {infos : List GameInfo} (h : WellFormed r) (hmap : Maps r existing)
    (hrun : infos.foldlM (addInfo progressId) (r, existing) = some (r', existing')) :
    WellFormed r' := by
  induction infos generalizing r existing with
  | nil =>
      cases hrun
      exact h
  | cons info infos ih =>
      rw [List.foldlM_cons] at hrun
      obtain ⟨⟨middle, map⟩, hfirst, hrest⟩ := Option.bind_eq_some_iff.mp hrun
      obtain ⟨h', hmap'⟩ := addInfo_wellFormed h hmap hfirst
      exact ih h' hmap' hrest

end Add

section Operations

variable {r r' : Repository} {progressId : Int}

theorem removeProgressEntry_wellFormed (h : WellFormed r) :
    WellFormed (r.removeProgressEntry progressId) := by
  unfold removeProgressEntry
  split
  · split
    · exact h.sublist List.erase_sublist
    · exact h
  · exact h

theorem onBoot_wellFormed (h : WellFormed r) {game : Ref}
    (hgame : game ∈ r.games ∨ game < r.next ∧
      (r.path game ≠ placeholderPath → ∀ other ∈ r.games, r.path other ≠ r.path game)) :
    WellFormed (r.onBoot game) := by
  have hmem {ref : Ref} (href : ref ∈ game :: r.games.erase game) :
      ref = game ∨ ref ∈ r.games := by
    rcases List.mem_cons.mp href with heq | href
    · exact .inl heq
    · exact .inr (List.mem_of_mem_erase href)
  have hlast (ref : Ref) (href : ref ∈ r.games) (heq : r.path ref = r.path game)
      (hne : r.path game ≠ placeholderPath) : ref = game := by
    rcases hgame with hin | ⟨-, hnone⟩
    · exact h.distinct ref href game hin heq (heq ▸ hne)
    · exact absurd heq (hnone hne ref href)
  unfold onBoot
  split
  · constructor
    · intro ref href
      rcases hmem href with rfl | href
      · rcases hgame with hin | ⟨hlt, -⟩
        · exact h.allocated _ hin
        · exact hlt
      · exact h.allocated ref href
    · exact List.nodup_cons.mpr ⟨fun hin => h.nodup.not_mem_erase hin, h.nodup.erase game⟩
    · intro a ha b hb heq hne
      change r.path a = r.path b at heq
      change r.path a ≠ _ at hne
      rcases hmem ha with hag | ha'
      · rcases hmem hb with hbg | hb'
        · exact hag.trans hbg.symm
        · rw [hag] at heq hne
          exact hag.trans (hlast b hb' heq.symm hne).symm
      · rcases hmem hb with hbg | hb'
        · rw [hbg] at heq
          exact (hlast a ha' heq (heq ▸ hne)).trans hbg.symm
        · exact h.distinct a ha' b hb' heq hne
  · exact h

theorem createGameInstallEntry_wellFormed (h : WellFormed r) (progressId : Int) :
    ∃ r', r.createGameInstallEntry progressId = some r' ∧ WellFormed r' := by
  refine ⟨_, rfl, h.addFirst ?_⟩
  intro hne
  exact absurd rfl hne

theorem clearProgress_wellFormed (h : WellFormed r) : WellFormed (r.clearProgress progressId) := by
  unfold clearProgress
  dsimp only
  have hpath (ref : Ref) : (if ref ∈ r.games then
      { r.objects ref with
        progressList := (r.objects ref).progressList.filter (·.id ≠ progressId) }
      else r.objects ref).info.path = r.path ref := by
    split
    · rfl
    · rfl
  exact (h.objects hpath).sublist List.filter_sublist

end Operations

-- What keeps an operation from throwing and from bringing a path in twice.
def Calm (r : Repository) : Operation → Prop
  | .add gameInfos progressId => 0 ≤ progressId → (gameInfos.map GameInfo.path).Nodup ∧
      ∀ info ∈ gameInfos, Free (r.removeProgressEntry progressId)
        (r.removeProgressEntry progressId).existingByPath info.path
  | .onBoot game => game ∈ r.games ∨ game < r.next ∧
      (r.path game ≠ placeholderPath → ∀ other ∈ r.games, r.path other ≠ r.path game)
  | _ => True

theorem add_isSome_iff {r : Repository} (h : WellFormed r) (gameInfos : List GameInfo)
    (progressId : Int) :
    (∃ r', r.add gameInfos progressId = some r') ↔ Calm r (.add gameInfos progressId) := by
  have hloop := addInfos_isSome_iff progressId gameInfos
    (removeProgressEntry_wellFormed h) (existingByPath_maps (r.removeProgressEntry progressId))
  change _ ↔ (0 ≤ progressId → _)
  rw [← hloop]
  unfold Repository.add
  simp

theorem step_wellFormed {r : Repository} {operation : Operation} (h : WellFormed r)
    (hcalm : Calm r operation) : ∃ r', step r operation = some r' ∧ WellFormed r' := by
  cases operation with
  | add gameInfos progressId =>
      obtain ⟨r', hr'⟩ := (add_isSome_iff h gameInfos progressId).mpr hcalm
      refine ⟨r', hr', ?_⟩
      obtain ⟨⟨last, existing⟩, hrun, heq⟩ := Option.map_eq_some_iff.mp hr'
      cases heq
      exact addInfos_wellFormed (removeProgressEntry_wellFormed h) (existingByPath_maps _) hrun
  | createGameInstallEntry progressId => exact createGameInstallEntry_wellFormed h progressId
  | clearProgress progressId => exact ⟨_, rfl, clearProgress_wellFormed h⟩
  | onBoot game => exact ⟨_, rfl, onBoot_wellFormed h hcalm⟩
  | remove game => exact ⟨_, rfl, h.sublist List.erase_sublist⟩

-- Every operation of a run meets its condition where it is run.
def AllCalm (start : Repository) (operations : List Operation) : Prop :=
  ∀ before operation after r, operations = before ++ operation :: after →
    run start before = some r → Calm r operation

theorem run_wellFormed {start : Repository} (h : WellFormed start) {operations : List Operation}
    (hcalm : AllCalm start operations) :
    ∃ r, run start operations = some r ∧ WellFormed r := by
  induction operations generalizing start with
  | nil => exact ⟨start, rfl, h⟩
  | cons operation rest ih =>
      obtain ⟨r, hstep, hr⟩ := step_wellFormed h (hcalm [] operation rest start rfl rfl)
      have hrun (operations : List Operation) :
          run start (operation :: operations) = run r operations := by
        rw [run, List.foldlM_cons, hstep]
        rfl
      rw [hrun]
      apply ih hr
      intro before operation' after r' hsplit hbefore
      exact hcalm (operation :: before) operation' after r' (by rw [hsplit]; rfl)
        ((hrun before).trans hbefore)

-- In a calm run nothing throws and no path comes twice, and in all of its states add throws for
-- just the arguments that are not calm.
theorem calm_run_never_throws (start : Repository) (hstart : WellFormed start)
    (operations : List Operation) (hcalm : AllCalm start operations) :
    ∀ before after, operations = before ++ after →
      ∃ r, run start before = some r ∧ DistinctPaths r ∧ ∀ gameInfos progressId,
        (∃ r', r.add gameInfos progressId = some r') ↔ Calm r (.add gameInfos progressId) := by
  rintro before after rfl
  have hbefore : AllCalm start before := by
    intro first operation rest r hsplit hrun
    exact hcalm first operation (rest ++ after) r (by rw [hsplit]; simp) hrun
  obtain ⟨r, hrun, hr⟩ := run_wellFormed hstart hbefore
  exact ⟨r, hrun, hr.distinctPaths, fun gameInfos progressId => add_isSome_iff hr gameInfos progressId⟩

def emptyRepository : Repository where
  objects _ := { info := { path := [] } }
  next := 0
  games := []

theorem emptyRepository_wellFormed : WellFormed emptyRepository :=
  ⟨by simp [emptyRepository], List.nodup_nil, by simp [emptyRepository]⟩

theorem allCalm_cons {start : Repository} {operation : Operation} {rest : List Operation}
    (hfirst : Calm start operation)
    (hrest : ∀ r, step start operation = some r → AllCalm r rest) :
    AllCalm start (operation :: rest) := by
  intro before operation' after r hsplit hrun
  cases before with
  | nil =>
      cases hsplit
      cases hrun
      exact hfirst
  | cons first before =>
      cases hsplit
      obtain ⟨middle, hstep, hrun⟩ := Option.bind_eq_some_iff.mp hrun
      exact hrest middle hstep before operation' after r rfl hrun

def gamePath : Text := ['/', 'a']

-- A package is installed: its placeholder gives way to the game.
theorem calm_run_never_throws_install : ∃ r,
    run emptyRepository [.createGameInstallEntry 1, .add [{ path := gamePath }] 1] = some r ∧
      DistinctPaths r := by
  have hcalm : AllCalm emptyRepository
      [.createGameInstallEntry 1, .add [{ path := gamePath }] 1] := by
    apply allCalm_cons
    · exact True.intro
    · intro r hr
      cases hr
      apply allCalm_cons
      · intro _
        refine ⟨List.nodup_singleton _, ?_⟩
        intro info hinfo ref href
        cases href
      · intro r hr before operation after r' hsplit
        cases before <;> cases hsplit
  obtain ⟨r, hrun, hdistinct, -⟩ := calm_run_never_throws emptyRepository emptyRepository_wellFormed
    _ hcalm _ [] (List.append_nil _).symm
  exact ⟨r, hrun, hdistinct⟩

-- The second of two directories that are installed at once throws; a game that was removed and
-- found again comes in twice when the old object is booted.
theorem second_install_throws :
    ((run emptyRepository [.add [{ path := placeholderPath }] 1]).isSome = true ∧
      (run emptyRepository [.add [{ path := placeholderPath }] 1,
        .add [{ path := placeholderPath }] 2]).isNone = true) ∧
    (run emptyRepository [.add [{ path := gamePath }] (-1), .remove 0,
      .add [{ path := gamePath }] (-1), .onBoot 0]).map (fun r => r.games.map r.path) =
        some [gamePath, gamePath] := by
  decide

end Rpcsx.GameRepository
