import Rpcsx.Ipc.Invariant

namespace Rpcsx.Ipc

open State

structure Good (s : State) : Prop where
  counted : Counted s
  registered : Registered s

-- on_id_create succeeds on the object that has been made.
def Completes (s : State) (c : Call) : Prop :=
  (c.kind = .memory → c.taken = true) ∧ (c.kind = .cond → s.exists_ c.mutex ≠ 0)

section Made

variable {s : State} {c : Call}

theorem make_info_next : (s.make c).info s.next = c.make := Function.update_self ..

theorem make_exists_next : (s.make c).exists_ s.next = 0 := Function.update_self ..

theorem make_info {ref : Nat} (href : ref < s.next) : (s.make c).info ref = s.info ref :=
  Function.update_of_ne (Nat.ne_of_lt href) ..

theorem make_exists {ref : Nat} (href : ref < s.next) : (s.make c).exists_ ref = s.exists_ ref :=
  Function.update_of_ne (Nat.ne_of_lt href) ..

theorem finalizeMade_of_completes (hready : c.Ready s) (h : Completes s c) :
    s.finalizeMade c = ((s.make c).bump s.next, .ok s.next) := by
  unfold finalizeMade
  rw [onIdCreate_eq]
  · rw [make_info_next]
    intro hkind
    have hmutex := (hready.1 hkind).1
    refine ⟨Nat.ne_of_lt hmutex, ?_⟩
    change (s.make c).exists_ c.mutex ≠ 0
    rw [make_exists hmutex]
    exact h.2 hkind
  · rw [make_info_next]
    exact fun hkind _ => h.1 hkind

theorem finalizeMade_of_not_completes (hready : c.Ready s) (h : ¬Completes s c) :
    ∃ error, error ≠ .eexist ∧ s.finalizeMade c = (s, .error error) := by
  unfold finalizeMade onIdCreate
  dsimp only
  rw [make_info_next, make_exists_next]
  cases hkind : c.kind with
  | cond =>
      have hmutex := (hready.1 hkind).1
      have hdead : s.exists_ c.mutex = 0 := by
        by_contra hne
        exact h ⟨by rw [hkind]; rintro ⟨⟩, fun _ => hne⟩
      have hzero : ¬Function.update (s.make c).exists_ s.next (0 + 1) c.make.mutex ≠ 0 := by
        change ¬Function.update (s.make c).exists_ s.next (0 + 1) c.mutex ≠ 0
        rw [Function.update_of_ne (Nat.ne_of_lt hmutex), make_exists hmutex, hdead]
        exact fun hne => hne rfl
      have hmake : c.make.kind = .cond := hkind
      simp only [hmake]
      refine ⟨.esrch, by rintro ⟨⟩, ?_⟩
      rw [if_neg hzero]
  | memory =>
      have htaken : ¬c.taken = true := by
        intro htaken
        exact h ⟨fun _ => htaken, by rw [hkind]; rintro ⟨⟩⟩
      have hmake : c.make.kind = .memory := hkind
      simp only [hmake]
      rw [if_pos ⟨trivial, htaken⟩]
      exact ⟨.enomem, by rintro ⟨⟩, rfl⟩
  | mutex => exact absurd ⟨by rw [hkind]; rintro ⟨⟩, by rw [hkind]; rintro ⟨⟩⟩ h
  | rwlock => exact absurd ⟨by rw [hkind]; rintro ⟨⟩, by rw [hkind]; rintro ⟨⟩⟩ h
  | eventQueue => exact absurd ⟨by rw [hkind]; rintro ⟨⟩, by rw [hkind]; rintro ⟨⟩⟩ h
  | sema => exact absurd ⟨by rw [hkind]; rintro ⟨⟩, by rw [hkind]; rintro ⟨⟩⟩ h
  | eventFlag => exact absurd ⟨by rw [hkind]; rintro ⟨⟩, by rw [hkind]; rintro ⟨⟩⟩ h

-- A new object with its id, and with its entry where it is shared.
theorem Good.made (h : Good s) (hready : c.Ready s) (hvalid : c.invalid = false)
    (hcompletes : Completes s c) {id : Nat} (hid : c.id = some id)
    {registry : Kind → Nat → Option Nat}
    (hregistry : ∀ kind key ref, registry kind key = some ref ↔
      s.registry kind key = some ref ∨
        ref = s.next ∧ c.make.kind = kind ∧ c.make.key = key ∧ c.make.pshared = true) :
    Good { (s.make c).bump s.next with ids := (id, s.next) :: s.ids, registry := registry } where
  counted := by
    have hmade := (h.counted.make hready hvalid).attach (Nat.lt_succ_self s.next)
      (hready.2 id hid) (by
        rw [make_info_next]
        intro hkind
        change (s.make c).exists_ c.mutex ≠ 0
        rw [make_exists (hready.1 hkind).1]
        exact hcompletes.2 hkind)
    exact ⟨hmade.ids_lt, hmade.ids_nodup, hmade.exists_eq, hmade.cond_eq, hmade.cond_mutex,
      hmade.cond_alive, hmade.unregisters_eq⟩
  registered kind key ref := by
    change registry kind key = some ref ↔ ref < s.next + 1 ∧ ((s.make c).info ref).kind = kind ∧
      ((s.make c).info ref).key = key ∧ ((s.make c).info ref).pshared = true ∧
      Function.update (s.make c).exists_ s.next ((s.make c).exists_ s.next + 1) ref ≠ 0
    rw [hregistry]
    by_cases hlt : ref < s.next
    · rw [make_info hlt, Function.update_of_ne (Nat.ne_of_lt hlt), make_exists hlt,
        h.registered kind key ref]
      constructor
      · rintro (⟨_, hrest⟩ | ⟨he, _⟩)
        · exact ⟨Nat.lt_succ_of_lt hlt, hrest⟩
        · exact absurd he (Nat.ne_of_lt hlt)
      · rintro ⟨_, hrest⟩
        exact Or.inl ⟨hlt, hrest⟩
    · have hold : ¬s.registry kind key = some ref :=
        fun hr => hlt ((h.registered kind key ref).mp hr).1
      by_cases he : ref = s.next
      · subst he
        rw [make_info_next, Function.update_self]
        constructor
        · rintro (hr | ⟨_, hkind, hkey, hshared⟩)
          · exact absurd hr hold
          · exact ⟨Nat.lt_succ_self _, hkind, hkey, hshared, Nat.succ_ne_zero _⟩
        · rintro ⟨_, hkind, hkey, hshared, _⟩
          exact Or.inr ⟨rfl, hkind, hkey, hshared⟩
      · constructor
        · rintro (hr | ⟨heq, _⟩)
          · exact absurd hr hold
          · exact absurd heq he
        · rintro ⟨hlt', _⟩
          omega

end Made

section Existing

variable {s : State} {ref : Nat}

-- The mutex of a condition variable that exists has not been destroyed.
theorem Good.mutex_alive (h : Good s) (href : ref < s.next) (hexists : s.exists_ ref ≠ 0)
    (hkind : (s.info ref).kind = .cond) : s.exists_ (s.info ref).mutex ≠ 0 := by
  obtain ⟨hmutex, _⟩ := h.counted.cond_mutex ref href hkind
  apply h.counted.cond_alive _ hmutex
  rw [h.counted.cond_eq _ hmutex]
  rw [h.counted.exists_eq ref href] at hexists
  obtain ⟨entry, hentry, hrefers⟩ := List.countP_pos_iff.mp (Nat.pos_of_ne_zero hexists)
  apply Nat.ne_of_gt
  apply List.countP_pos_iff.mpr
  simp only [refers, decide_eq_true_eq] at hrefers
  exact ⟨entry, hentry, by simp [condOf, hrefers, hkind]⟩

theorem Good.finalizeAt (h : Good s) (href : ref < s.next) (hexists : s.exists_ ref ≠ 0)
    (taken : Bool) : s.finalizeAt ref taken = (s.bump ref, .ok ref) := by
  unfold State.finalizeAt
  rw [onIdCreate_eq]
  · intro hkind
    refine ⟨?_, h.mutex_alive href hexists hkind⟩
    intro he
    have hkind' := (h.counted.cond_mutex ref href hkind).2
    rw [he, hkind] at hkind'
    cases hkind'
  · exact fun _ hzero => absurd hzero hexists

theorem Good.existing (h : Good s) (href : ref < s.next) (hexists : s.exists_ ref ≠ 0) {id : Nat}
    (hid : ∀ entry ∈ s.ids, entry.1 ≠ id) :
    Good { s.bump ref with ids := (id, ref) :: s.ids } where
  counted := h.counted.attach href hid fun hkind => h.mutex_alive href hexists hkind
  registered kind key ref' := by
    change s.registry kind key = some ref' ↔ ref' < s.next ∧ (s.info ref').kind = kind ∧
      (s.info ref').key = key ∧ (s.info ref').pshared = true ∧
      Function.update s.exists_ ref (s.exists_ ref + 1) ref' ≠ 0
    rw [h.registered kind key ref']
    by_cases he : ref' = ref
    · subst he
      rw [Function.update_self]
      have hiff : s.exists_ ref' ≠ 0 ↔ s.exists_ ref' + 1 ≠ 0 :=
        ⟨fun _ => Nat.succ_ne_zero _, fun _ => hexists⟩
      rw [hiff]
    · rw [Function.update_of_ne he]

end Existing

section Create

variable {s : State} {c : Call} {id : Nat}

-- A shared object is registered under the key.
theorem Good.create_registered (h : Good s) (hready : c.Ready s) (hvalid : c.invalid = false)
    (hid : c.id = some id) (hshared : c.pshared = .processShared) {ref : Nat}
    (hregistry : s.registry c.kind c.ipcKey = some ref) :
    (c.flags = .newlyCreated ∧ s.create c = (s, .failed .eexist)) ∨
      (c.flags ≠ .newlyCreated ∧ Good (s.create c).1 ∧ (s.create c).2 = .created ref) := by
  obtain ⟨href, _, _, _, hexists⟩ := (h.registered _ _ _).mp hregistry
  have hfinalize := h.finalizeAt href hexists c.taken
  have hgood := h.existing href hexists (hready.2 id hid)
  have hvalid' : ¬c.invalid = true := by simp [hvalid]
  unfold State.create State.add
  rw [if_neg hvalid', hid]
  dsimp only
  rw [if_neg (fun hne => hne hshared), hregistry]
  dsimp only
  by_cases hcreate : c.flags = .notCreate
  · rw [if_pos hcreate, hfinalize]
    exact Or.inr ⟨by rw [hcreate]; nofun, hgood, rfl⟩
  · rw [if_neg hcreate]
    by_cases hnewly : c.flags = .newlyCreated
    · rw [if_pos hnewly]
      exact Or.inl ⟨hnewly, rfl⟩
    · rw [if_neg hnewly, if_pos (by simpa using hnewly)]
      dsimp only
      rw [hfinalize]
      exact Or.inr ⟨hnewly, hgood, rfl⟩

-- No object is registered under the key.
theorem Good.create_unregistered (h : Good s) (hready : c.Ready s) (hvalid : c.invalid = false)
    (hid : c.id = some id) (hshared : c.pshared = .processShared)
    (hregistry : s.registry c.kind c.ipcKey = none) :
    (c.flags = .notCreate ∧ s.create c = (s, .failed .esrch)) ∨
      (c.flags ≠ .notCreate ∧
        (Completes s c → Good (s.create c).1 ∧ (s.create c).2 = .created s.next)) := by
  have hvalid' : ¬c.invalid = true := by simp [hvalid]
  unfold State.create State.add
  rw [if_neg hvalid', hid]
  dsimp only
  rw [if_neg (fun hne => hne hshared), hregistry]
  dsimp only
  by_cases hcreate : c.flags = .notCreate
  · rw [if_pos hcreate]
    exact Or.inl ⟨hcreate, rfl⟩
  · rw [if_neg hcreate]
    refine Or.inr ⟨hcreate, ?_⟩
    intro hcompletes
    rw [finalizeMade_of_completes hready hcompletes]
    refine ⟨?_, rfl⟩
    apply h.made hready hvalid hcompletes hid
    intro kind key ref
    have hkey : c.make.key = c.ipcKey := if_pos hshared
    have hpshared : c.make.pshared = true := decide_eq_true hshared
    change Function.update s.registry c.kind
      (Function.update (s.registry c.kind) c.ipcKey (some s.next)) kind key = some ref ↔
      s.registry kind key = some ref ∨ ref = s.next ∧ c.kind = kind ∧ c.make.key = key ∧ _
    rw [hkey, hpshared]
    by_cases hkind : kind = c.kind
    · subst hkind
      rw [Function.update_self]
      by_cases he : key = c.ipcKey
      · subst he
        rw [Function.update_self, hregistry]
        constructor
        · intro heq
          exact Or.inr ⟨(Option.some.inj heq).symm, rfl, rfl, rfl⟩
        · rintro (heq | ⟨rfl, _⟩)
          · cases heq
          · rfl
      · rw [Function.update_of_ne he]
        exact ⟨Or.inl, fun hr => hr.resolve_right fun hr => he hr.2.2.1.symm⟩
    · rw [Function.update_of_ne hkind]
      exact ⟨Or.inl, fun hr => hr.resolve_right fun hr => hkind hr.2.1.symm⟩

-- The object is not shared.
theorem Good.create_unique (h : Good s) (hready : c.Ready s) (hvalid : c.invalid = false)
    (hid : c.id = some id) (hshared : c.pshared ≠ .processShared) :
    Good (s.create c).1 ∧ (s.create c).2 ≠ .fault := by
  have hvalid' : ¬c.invalid = true := by simp [hvalid]
  unfold State.create
  rw [if_neg hvalid', hid]
  dsimp only
  rw [if_pos hshared]
  by_cases hcompletes : Completes s c
  · rw [finalizeMade_of_completes hready hcompletes]
    refine ⟨?_, nofun⟩
    apply h.made hready hvalid hcompletes hid
    intro kind key ref
    have hpshared : ¬c.make.pshared = true := by simpa [Call.make] using hshared
    exact ⟨Or.inl, fun hr => hr.resolve_right fun hr => hpshared hr.2.2.2⟩
  · obtain ⟨error, _, herror⟩ := finalizeMade_of_not_completes hready hcompletes
    rw [herror]
    exact ⟨h, nofun⟩

-- A call that does not run on_id_create in vain for a key that is not registered.
def Harmless (s : State) (c : Call) : Prop :=
  c.pshared = .processShared → c.flags ≠ .notCreate → s.registry c.kind c.ipcKey = none →
    Completes s c

theorem Good.create (h : Good s) (hready : c.Ready s) (hharmless : Harmless s c) :
    Good (s.create c).1 ∧ (s.create c).2 ≠ .fault := by
  cases hvalid : c.invalid with
  | true =>
      unfold State.create
      rw [if_pos hvalid]
      exact ⟨h, nofun⟩
  | false =>
      cases hid : c.id with
      | none =>
          have hvalid' : ¬c.invalid = true := by simp [hvalid]
          unfold State.create
          rw [if_neg hvalid', hid]
          exact ⟨h, nofun⟩
      | some id =>
          by_cases hshared : c.pshared = .processShared
          · cases hregistry : s.registry c.kind c.ipcKey with
            | some ref =>
                rcases h.create_registered hready hvalid hid hshared hregistry with
                  ⟨_, heq⟩ | ⟨_, hgood, heq⟩
                · rw [heq]
                  exact ⟨h, nofun⟩
                · rw [heq]
                  exact ⟨hgood, nofun⟩
            | none =>
                rcases h.create_unregistered hready hvalid hid hshared hregistry with
                  ⟨_, heq⟩ | ⟨hcreate, hmade⟩
                · rw [heq]
                  exact ⟨h, nofun⟩
                · obtain ⟨hgood, heq⟩ := hmade (hharmless hshared hcreate hregistry)
                  rw [heq]
                  exact ⟨hgood, nofun⟩
          · exact h.create_unique hready hvalid hid hshared

theorem Good.destroy (h : Good s) (id : Nat) (busy : Bool) : Good (s.destroy id busy).1 := by
  unfold State.destroy
  split
  · exact h
  · rename_i found ref hfind
    have hid : found = id := by simpa using List.find?_some hfind
    have hmem := List.mem_of_find?_eq_some hfind
    subst hid
    split
    · exact h
    · split
      · exact h
      · rename_i _ hcond
        have hfree : (s.info ref).kind = .mutex → s.condCount ref = 0 := by
          intro hkind
          by_contra hne
          exact hcond ⟨hkind, hne⟩
        exact ⟨h.counted.detach hmem hfree, h.registered.detach h.counted hmem⟩

end Create

-- The steps whose creations are harmless.
inductive HarmlessStep (s : State) : State → Prop where
  | create (c : Call) : c.Ready s → Harmless s c → HarmlessStep s (s.create c).1
  | destroy (id : Nat) (busy : Bool) : HarmlessStep s (s.destroy id busy).1

theorem Good.start : Good State.start where
  counted := ⟨nofun, List.nodup_nil, nofun, nofun, nofun, nofun, nofun⟩
  registered := by
    intro kind key ref
    exact ⟨nofun, fun h => absurd h.1 (Nat.not_lt_zero _)⟩

theorem good_of_run {s : State} (h : Relation.ReflTransGen HarmlessStep State.start s) :
    Good s := by
  induction h with
  | refl => exact Good.start
  | tail _ hlast ih =>
      cases hlast with
      | create c hready hharmless => exact (ih.create hready hharmless).1
      | destroy id busy => exact ih.destroy id busy

-- What the registry promises of a state.
structure Promise (s : State) : Prop where
  exists_eq : ∀ ref < s.next, s.exists_ ref = (s.ids.filter (refers ref)).length
  same_object : ∀ entry ∈ s.ids, ∀ entry' ∈ s.ids,
    (s.info entry.2).kind = (s.info entry'.2).kind → (s.info entry.2).key = (s.info entry'.2).key →
    (s.info entry.2).pshared = true → (s.info entry'.2).pshared = true → entry.2 = entry'.2
  registry_iff : Registered s

-- What it promises of a call whose arguments are valid and for which there is an id.
def Answers (s : State) (c : Call) : Prop :=
  c.invalid = false → c.id ≠ none → c.pshared = .processShared → (s.create c).2 ≠ .fault ∧
    (c.flags = .newlyCreated →
      ((s.create c).2 = .failed .eexist ↔ s.registry c.kind c.ipcKey ≠ none)) ∧
    (c.flags = .notCreate →
      ((s.create c).2 = .failed .esrch ↔ s.registry c.kind c.ipcKey = none))

theorem registry_consistent {s : State} (h : Relation.ReflTransGen HarmlessStep State.start s) :
    Promise s ∧ ∀ c : Call, c.Ready s → Harmless s c → Answers s c := by
  have hs := good_of_run h
  refine ⟨⟨?_, ?_, hs.registered⟩, ?_⟩
  · intro ref href
    rw [hs.counted.exists_eq ref href, List.countP_eq_length_filter]
  · intro entry hmem entry' hmem' hkind hkey hshared hshared'
    have hexists : ∀ entry ∈ s.ids, s.exists_ entry.2 ≠ 0 := by
      intro entry hmem
      rw [hs.counted.exists_eq _ (hs.counted.ids_lt entry hmem)]
      exact Nat.ne_of_gt (List.countP_pos_iff.mpr ⟨entry, hmem, by simp [refers]⟩)
    exact hs.registered.unique (hs.counted.ids_lt entry hmem) (hs.counted.ids_lt entry' hmem')
      hkind hkey hshared hshared' (hexists entry hmem) (hexists entry' hmem')
  · intro c hready hharmless hvalid hid hshared
    obtain ⟨id, hid⟩ := Option.ne_none_iff_exists'.mp hid
    refine ⟨(hs.create hready hharmless).2, ?_, ?_⟩
    · intro hnewly
      cases hregistry : s.registry c.kind c.ipcKey with
      | some ref =>
          rcases hs.create_registered hready hvalid hid hshared hregistry with
            ⟨_, heq⟩ | ⟨hne, _⟩
          · rw [heq]
            exact ⟨fun _ => by rintro ⟨⟩, fun _ => rfl⟩
          · exact absurd hnewly hne
      | none =>
          rcases hs.create_unregistered hready hvalid hid hshared hregistry with
            ⟨hcreate, _⟩ | ⟨hcreate, hmade⟩
          · rw [hnewly] at hcreate
            cases hcreate
          · rw [(hmade (hharmless hshared hcreate hregistry)).2]
            exact ⟨by rintro ⟨⟩, fun hne => absurd rfl hne⟩
    · intro hcreate
      cases hregistry : s.registry c.kind c.ipcKey with
      | some ref =>
          rcases hs.create_registered hready hvalid hid hshared hregistry with
            ⟨hnewly, _⟩ | ⟨_, _, heq⟩
          · rw [hcreate] at hnewly
            cases hnewly
          · rw [heq]
            exact ⟨by rintro ⟨⟩, by rintro ⟨⟩⟩
      | none =>
          rcases hs.create_unregistered hready hvalid hid hshared hregistry with
            ⟨_, heq⟩ | ⟨hne, _⟩
          · rw [heq]
            exact ⟨fun _ => rfl, fun _ => rfl⟩
          · exact absurd hcreate hne

-- A shared mutex, and the call that creates it once more.
theorem registry_consistent_mutex : ∃ s : State,
    Relation.ReflTransGen HarmlessStep State.start s ∧ s.registry .mutex 5 = some 0 ∧ Promise s ∧
      Answers s ⟨.mutex, .processShared, 5, .newlyCreated, 0, false, some 2⟩ := by
  have hready : (⟨.mutex, .processShared, 5, .notCare, 0, false, some 1⟩ : Call).Ready State.start :=
    ⟨nofun, nofun⟩
  have hrun := Relation.ReflTransGen.refl.tail
    (HarmlessStep.create _ hready fun _ _ _ => ⟨nofun, nofun⟩)
  obtain ⟨hpromise, hanswers⟩ := registry_consistent hrun
  refine ⟨_, hrun, rfl, hpromise, hanswers _ ⟨nofun, ?_⟩ nofun⟩
  intro id hid entry hmem
  cases hid
  cases List.mem_singleton.mp hmem
  nofun

-- A new shared memory whose container has no memory left.
theorem registry_answers_wrongly : ¬∀ s : State, Relation.ReflTransGen Step State.start s →
    Promise s ∧ ∀ c : Call, c.Ready s → Answers s c := by
  intro hclaim
  obtain ⟨_, hanswers⟩ := hclaim State.start .refl
  have hcall := hanswers ⟨.memory, .processShared, 5, .newlyCreated, 0, false, some 1⟩
    ⟨nofun, nofun⟩ rfl nofun rfl
  exact (hcall.2.1 rfl).mp rfl rfl

end Rpcsx.Ipc
