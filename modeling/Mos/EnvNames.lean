import Mos.Asids

/-!
# Env ids as names

`mkenvid` counts the ids it makes in a 32-bit word, of which 21 bits are left in
an id. An id names one incarnation of a slot as long as the slot does not get two
ids at counts that agree in those bits.
-/

namespace Mos

variable {s s' : Kernel} {e : EnvIx} {b : Boot}

/-- What happens to names: `mkenvid` makes the id `id` for the slot `e`, which
`env_alloc` then admits unless no ASID is left, or `e` is freed. -/
inductive NameEv
  | made (e : EnvIx) (id : Word) (admitted : Bool)
  | freed (e : EnvIx)
  | other

/-- The rest of the kernel neither allocates nor frees envs, and it does not look
into slots that are free. -/
structure SameNames (s s' : Kernel) : Prop where
  free : s'.envFreeList = s.envFreeList
  count : s'.mkenvidCount = s.mkenvidCount
  envId : ∀ e, (s'.envs e).envId = (s.envs e).envId
  status : ∀ e ∈ s.envFreeList, (s'.envs e).envStatus = (s.envs e).envStatus

inductive nameStep : Kernel → NameEv → Kernel → Prop
  | made {s s' : Kernel} {e : EnvIx} {parentId : Word} {r : Except Err EnvIx} :
      envAlloc s parentId = .ok (s', r) → s.envFreeList.head? = some e →
      s'.mkenvidCount ≠ s.mkenvidCount → nameStep s (.made e (s'.envs e).envId r.isOk) s'
  | refused {s s' : Kernel} {parentId : Word} {r : Except Err EnvIx} :
      envAlloc s parentId = .ok (s', r) → s'.mkenvidCount = s.mkenvidCount →
      nameStep s .other s'
  | freed {s s' : Kernel} {e : EnvIx} :
      e ∉ s.envFreeList → envFree s e = .ok s' → nameStep s (.freed e) s'
  | other {s s' : Kernel} : SameNames s s' → nameStep s .other s'

/-- The id made for a slot, with the slot. -/
def NameEv.name : NameEv → Option (EnvIx × Word)
  | .made e id _ => some (e, id)
  | _ => none

/-- The slots for which ids are made, in order. -/
def slotsMade (evs : List NameEv) : List EnvIx := (evs.filterMap NameEv.name).map Prod.fst

/-- The ids that are made, in order. -/
def idsMade (evs : List NameEv) : List Word := (evs.filterMap NameEv.name).map Prod.snd

/-- Every id made names one incarnation of a slot, and no other env. -/
structure UniqueNames (evs : List NameEv) (s : Kernel) : Prop where
  ne_zero : ∀ id ∈ idsMade evs, id ≠ 0
  nodup : (idsMade evs).Nodup
  alive : ∀ before e id after, evs = before ++ .made e id true :: after → .freed e ∉ after →
    (s.envs e).envStatus ≠ .free → envid2env s id false = .ok (.ok e)
  dead : ∀ before e id after, evs = before ++ .made e id true :: after → .freed e ∈ after →
    envid2env s id false = .ok (.error .badEnv)

/-- No slot gets ids at two counts that agree in 21 bits, and slot 0 gets none when
those bits are zero. -/
structure FreshCounts (slots : List EnvIx) : Prop where
  apart : ∀ i j : Nat, i < j → j < slots.length → slots[i]? = slots[j]? → ¬ 2 ^ 21 ∣ j - i
  ne_zero : ∀ i : Nat, slots[i]? = some 0 → ¬ 2 ^ 21 ∣ i + 1

/-- Fewer than 2²¹ ids are all fresh. -/
theorem freshCounts_of_length_lt {slots : List EnvIx} (h : slots.length < 2 ^ 21) :
    FreshCounts slots where
  apart i j lt inside _ divides := by
    have := Nat.le_of_dvd (by omega) divides
    omega
  ne_zero i first divides := by
    obtain ⟨inside, -⟩ := List.getElem?_eq_some_iff.mp first
    have := Nat.le_of_dvd (by omega) divides
    omega

/-! ## The ids -/

/-- The id that is made for `e` when the count gets to `k`. -/
def idAt (k : Nat) (e : EnvIx) : Word := (BitVec.ofNat 32 k <<< 11) ||| BitVec.ofNat 32 e

theorem idAt_toNat (k : Nat) (e : EnvIx) : (idAt k e).toNat = k % 2 ^ 21 * 2 ^ 11 + e := by
  have lt : (e : Nat) < 2 ^ 10 := e.isLt
  have high : (BitVec.ofNat 32 k <<< 11).toNat = (k % 2 ^ 21) <<< 11 := by
    rw [BitVec.toNat_shiftLeft, BitVec.toNat_ofNat, Nat.shiftLeft_eq, Nat.shiftLeft_eq]
    omega
  have low : (BitVec.ofNat 32 (e : Nat)).toNat = e := by
    rw [BitVec.toNat_ofNat]
    omega
  rw [idAt, BitVec.toNat_or, high, low, ← Nat.shiftLeft_add_eq_or_of_lt (by omega),
    Nat.shiftLeft_eq]

theorem idAt_eq_iff {k k' : Nat} {e e' : EnvIx} :
    idAt k e = idAt k' e' ↔ e = e' ∧ k % 2 ^ 21 = k' % 2 ^ 21 := by
  have lt : (e : Nat) < 2 ^ 10 := e.isLt
  have lt' : (e' : Nat) < 2 ^ 10 := e'.isLt
  rw [← BitVec.toNat_inj, idAt_toNat, idAt_toNat, Fin.ext_iff]
  omega

theorem idAt_eq_zero_iff {k : Nat} {e : EnvIx} : idAt k e = 0 ↔ e = 0 ∧ 2 ^ 21 ∣ k := by
  have lt : (e : Nat) < 2 ^ 10 := e.isLt
  have zero : (0 : Word).toNat = 0 := rfl
  rw [← BitVec.toNat_inj, idAt_toNat, Fin.ext_iff, zero, Fin.val_zero]
  omega

theorem envx_idAt (k : Nat) (e : EnvIx) : envx (idAt k e) = e := envx_mkenvid _ e

/-- The ids made while the slots `slots` are handed out, after `n` others. -/
def idsFor : Nat → List EnvIx → List Word
  | _, [] => []
  | n, e :: slots => idAt (n + 1) e :: idsFor (n + 1) slots

theorem idsFor_append (n : Nat) (slots : List EnvIx) (e : EnvIx) :
    idsFor n (slots ++ [e]) = idsFor n slots ++ [idAt (n + slots.length + 1) e] := by
  induction slots generalizing n with
  | nil => rfl
  | cons e' slots ih =>
      rw [List.cons_append, idsFor, idsFor, ih, List.length_cons, List.cons_append]
      congr 4
      omega

theorem idsFor_getElem? (n : Nat) (slots : List EnvIx) (i : Nat) :
    (idsFor n slots)[i]? = slots[i]?.map (idAt (n + i + 1)) := by
  induction slots generalizing n i with
  | nil => simp [idsFor]
  | cons e slots ih =>
      cases i with
      | zero => rfl
      | succ i =>
          rw [idsFor, List.getElem?_cons_succ, List.getElem?_cons_succ, ih]
          congr 2
          omega

theorem length_idsFor (n : Nat) (slots : List EnvIx) : (idsFor n slots).length = slots.length := by
  induction slots generalizing n with
  | nil => rfl
  | cons e slots ih => rw [idsFor, List.length_cons, List.length_cons, ih]

/-- Ids are nonzero and distinct exactly when the counts are fresh. -/
theorem freshCounts_iff (slots : List EnvIx) :
    FreshCounts slots ↔ (∀ id ∈ idsFor 0 slots, id ≠ 0) ∧ (idsFor 0 slots).Nodup := by
  refine ⟨fun fresh => ⟨fun id mem zero => ?_, ?_⟩, fun ⟨ne_zero, nodup⟩ => ⟨?_, ?_⟩⟩
  · obtain ⟨i, here⟩ := List.mem_iff_getElem?.mp mem
    rw [idsFor_getElem?, Nat.zero_add] at here
    obtain ⟨e, slot, rfl⟩ := Option.map_eq_some_iff.mp here
    obtain ⟨rfl, divides⟩ := idAt_eq_zero_iff.mp zero
    exact fresh.ne_zero i slot divides
  · rw [List.nodup_iff_getElem?_ne_getElem?]
    intro i j lt inside same
    rw [length_idsFor] at inside
    rw [idsFor_getElem?, idsFor_getElem?, Nat.zero_add, Nat.zero_add,
      List.getElem?_eq_getElem inside, List.getElem?_eq_getElem (by omega), Option.map_some,
      Option.map_some] at same
    obtain ⟨slot, agree⟩ := idAt_eq_iff.mp (Option.some.inj same)
    refine fresh.apart i j lt inside ?_ (by omega)
    rw [List.getElem?_eq_getElem inside, List.getElem?_eq_getElem (by omega), slot]
  · intro i j lt inside slot divides
    rw [List.nodup_iff_getElem?_ne_getElem?] at nodup
    refine nodup i j lt (by rwa [length_idsFor]) ?_
    rw [idsFor_getElem?, idsFor_getElem?, slot, Nat.zero_add, Nat.zero_add,
      List.getElem?_eq_getElem inside, Option.map_some, Option.map_some]
    exact congrArg some (idAt_eq_iff.mpr ⟨rfl, by omega⟩)
  · intro i slot divides
    have here := idsFor_getElem? 0 slots i
    rw [slot, Option.map_some, Nat.zero_add] at here
    exact ne_zero _ (List.mem_of_getElem? here) (idAt_eq_zero_iff.mpr ⟨rfl, divides⟩)

/-! ## What a run of names keeps -/

variable {evs : List NameEv} {ev : NameEv}

theorem made_snoc (evs : List NameEv) (e : EnvIx) (id : Word) (admitted : Bool) :
    slotsMade (evs ++ [.made e id admitted]) = slotsMade evs ++ [e] ∧
      idsMade (evs ++ [.made e id admitted]) = idsMade evs ++ [id] := by
  simp [slotsMade, idsMade, NameEv.name]

/-- Other events make no ids. -/
theorem unmade_snoc (evs : List NameEv) (h : ev.name = none) :
    slotsMade (evs ++ [ev]) = slotsMade evs ∧ idsMade (evs ++ [ev]) = idsMade evs := by
  simp [slotsMade, idsMade, h]

/-- Where an event stands in a run that grew by one. -/
theorem split_snoc {α : Type} {xs before after : List α} {x y : α}
    (h : xs ++ [x] = before ++ y :: after) :
    (xs = before ∧ x = y ∧ after = []) ∨
      ∃ after', after = after' ++ [x] ∧ xs = before ++ y :: after' := by
  rcases List.eq_nil_or_concat after with rfl | ⟨after', z, rfl⟩
  · obtain ⟨same, last⟩ := List.append_inj' h rfl
    exact .inl ⟨same, (List.cons.inj last).1, rfl⟩
  · rw [List.concat_eq_append, ← List.cons_append, ← List.append_assoc] at h
    obtain ⟨same, last⟩ := List.append_inj' h rfl
    cases last
    exact .inr ⟨after', List.concat_eq_append, same⟩

structure NameInv (evs : List NameEv) (s : Kernel) : Prop where
  free_nodup : s.envFreeList.Nodup
  free_status : ∀ e ∈ s.envFreeList, (s.envs e).envStatus = .free
  count : s.mkenvidCount = BitVec.ofNat 32 (slotsMade evs).length
  ids : idsMade evs = idsFor 0 (slotsMade evs)
  alive : ∀ before e id after, evs = before ++ .made e id true :: after → .freed e ∉ after →
    e ∉ s.envFreeList ∧ (s.envs e).envId = id
  dead : ∀ before e id after, evs = before ++ .made e id true :: after → .freed e ∈ after →
    e ∈ s.envFreeList ∨ (s.envs e).envId ∈ idsMade after

/-- A step that names nothing. -/
theorem NameInv.other (inv : NameInv evs s) (same : SameNames s s') :
    NameInv (evs ++ [.other]) s' where
  free_nodup := by rw [same.free]; exact inv.free_nodup
  free_status e mem := by
    rw [same.free] at mem
    rw [same.status e mem]
    exact inv.free_status e mem
  count := by
    rw [same.count, (unmade_snoc evs rfl).1]
    exact inv.count
  ids := by
    rw [(unmade_snoc evs rfl).1, (unmade_snoc evs rfl).2]
    exact inv.ids
  alive before e id after split unfreed := by
    rw [same.free, same.envId]
    rcases split_snoc split with ⟨-, clash, -⟩ | ⟨after', rfl, old⟩
    · cases clash
    · exact inv.alive before e id after' old fun mem => unfreed (List.mem_append_left _ mem)
  dead before e id after split freed := by
    rw [same.free, same.envId]
    rcases split_snoc split with ⟨-, clash, -⟩ | ⟨after', rfl, old⟩
    · cases clash
    · have earlier : .freed e ∈ after' := by simpa using freed
      rw [(unmade_snoc after' rfl).2]
      exact inv.dead before e id after' old earlier

/-- `env_free` puts the slot back on the free list. -/
theorem NameInv.freed (inv : NameInv evs s) (inUse : e ∉ s.envFreeList)
    (h : envFree s e = .ok s') : NameInv (evs ++ [.freed e]) s' := by
  obtain ⟨pm, q, -, rfl, -⟩ := envFree_ok h
  have envId : ∀ x, ((s.reclaim e pm).envs x).envId = (s.envs x).envId :=
    Kernel.setEnv_field (s := asidFree s (s.envs e).envAsid) (e := e)
      (f := fun env => { env with envStatus := .free }) Env.envId rfl
  refine ⟨List.nodup_cons.mpr ⟨inUse, inv.free_nodup⟩, fun x mem => ?_, ?_, ?_,
    fun before x id after split unfreed => ?_, fun before x id after split freed => ?_⟩
  · rcases eq_or_ne x e with rfl | hne
    · simp [Kernel.reclaim, Kernel.setEnv]
    · have old := inv.free_status x ((List.mem_cons.mp mem).resolve_left hne)
      simpa [Kernel.reclaim, Kernel.setEnv, asidFree, hne] using old
  · rw [(unmade_snoc evs rfl).1]
    exact inv.count
  · rw [(unmade_snoc evs rfl).1, (unmade_snoc evs rfl).2]
    exact inv.ids
  · rcases split_snoc split with ⟨-, clash, -⟩ | ⟨after', rfl, old⟩
    · cases clash
    · obtain ⟨used, same⟩ := inv.alive before x id after' old fun mem =>
        unfreed (List.mem_append_left _ mem)
      have hne : x ≠ e := fun eq => unfreed (by simp [eq])
      exact ⟨List.not_mem_cons_of_ne_of_not_mem hne used, (envId x).trans same⟩
  · rcases split_snoc split with ⟨-, clash, -⟩ | ⟨after', rfl, old⟩
    · cases clash
    · rw [(unmade_snoc after' rfl).2]
      show x ∈ e :: s.envFreeList ∨ ((s.reclaim e pm).envs x).envId ∈ idsMade after'
      rw [envId x]
      rcases List.mem_append.mp freed with earlier | last
      · exact (inv.dead before x id after' old earlier).imp (List.mem_cons_of_mem _) fun mem => mem
      · cases List.mem_singleton.mp last
        exact .inl List.mem_cons_self

/-- `mkenvid` makes the next id, whether `env_alloc` then finds an ASID or not. -/
theorem NameInv.made {parentId : Word} {r : Except Err EnvIx} (inv : NameInv evs s)
    (h : envAlloc s parentId = .ok (s', r)) (first : s.envFreeList.head? = some e)
    (counted : s'.mkenvidCount ≠ s.mkenvidCount) :
    NameInv (evs ++ [.made e (s'.envs e).envId r.isOk]) s' := by
  have made : ∃ rest, s.envFreeList = e :: rest ∧ s'.mkenvidCount = s.mkenvidCount + 1 ∧
      (s'.envs e).envId = ((s.mkenvidCount + 1) <<< 11) ||| BitVec.ofNat 32 e ∧
      (∀ x, x ≠ e → s'.envs x = s.envs x) ∧
      (s'.envs e).envStatus = (s.envs e).envStatus ∧
      s'.envFreeList = if r.isOk then rest else s.envFreeList := by
    rcases envAlloc_ok h with ⟨pm, err, rfl, rfl⟩ | ⟨e', rest, p, pm, err, hfree, rfl, rfl⟩ |
      ⟨e', rest, p, pm, i, hfree, -, rfl, rfl⟩
    · exact absurd rfl counted
    · rw [hfree] at first
      cases first
      refine ⟨rest, hfree, rfl, ?_, fun x hne => ?_, ?_, rfl⟩
      · simp [Kernel.setupEnv]
      · simp [Kernel.setupEnv, hne]
      · simp [Kernel.setupEnv]
    · rw [hfree] at first
      cases first
      refine ⟨rest, hfree, rfl, ?_, fun x hne => ?_, ?_, rfl⟩
      · simp [Kernel.setupEnv, Kernel.admitEnv]
      · simp [Kernel.setupEnv, Kernel.admitEnv, hne]
      · simp [Kernel.setupEnv, Kernel.admitEnv]
  obtain ⟨rest, hfree, count, envId, others, status, free⟩ := made
  have isFree : e ∈ s.envFreeList := by rw [hfree]; exact List.mem_cons_self
  have nodup := inv.free_nodup
  rw [hfree, List.nodup_cons] at nodup
  have sub : ∀ x ∈ s'.envFreeList, x ∈ s.envFreeList := by
    intro x mem
    rw [free] at mem
    split at mem
    · rw [hfree]
      exact List.mem_cons_of_mem _ mem
    · exact mem
  have next : (s'.envs e).envId = idAt ((slotsMade evs).length + 1) e := by
    rw [envId, inv.count, idAt, BitVec.ofNat_add]
    rfl
  refine ⟨?_, fun x mem => ?_, ?_, ?_, fun before x id after split unfreed => ?_,
    fun before x id after split freed => ?_⟩
  · rw [free]
    split
    · exact nodup.2
    · exact inv.free_nodup
  · rcases eq_or_ne x e with rfl | hne
    · exact status.trans (inv.free_status x isFree)
    · rw [others x hne]
      exact inv.free_status x (sub x mem)
  · rw [count, inv.count, (made_snoc evs _ _ _).1, List.length_append, List.length_singleton,
      BitVec.ofNat_add]
    rfl
  · rw [(made_snoc evs _ _ _).1, (made_snoc evs _ _ _).2, idsFor_append, inv.ids, next,
      Nat.zero_add]
  · rcases split_snoc split with ⟨-, last, -⟩ | ⟨after', rfl, old⟩
    · obtain ⟨rfl, rfl, admitted⟩ := NameEv.made.inj last
      rw [free, if_pos admitted]
      exact ⟨nodup.1, rfl⟩
    · obtain ⟨used, same⟩ := inv.alive before x id after' old fun mem =>
        unfreed (List.mem_append_left _ mem)
      have hne : x ≠ e := fun eq => used (eq ▸ isFree)
      rw [others x hne]
      exact ⟨fun mem => used (sub x mem), same⟩
  · rcases split_snoc split with ⟨-, -, rfl⟩ | ⟨after', rfl, old⟩
    · cases freed
    · have earlier : .freed x ∈ after' := by simpa using freed
      rw [(made_snoc after' _ _ _).2]
      rcases eq_or_ne x e with rfl | hne
      · exact .inr (List.mem_append_right _ (List.mem_singleton_self _))
      · rw [others x hne]
        refine (inv.dead before x id after' old earlier).imp (fun mem => ?_)
          (List.mem_append_left _)
        rw [free]
        split
        · rw [hfree] at mem
          exact (List.mem_cons.mp mem).resolve_left hne
        · exact mem

theorem NameInv.step (inv : NameInv evs s) (step : nameStep s ev s') :
    NameInv (evs ++ [ev]) s' := by
  cases step with
  | made alloc first counted => exact inv.made alloc first counted
  | refused alloc uncounted =>
      refine inv.other ?_
      rcases envAlloc_ok alloc with ⟨pm, err, rfl, rfl⟩ | ⟨e, rest, p, pm, err, -, rfl, rfl⟩ |
        ⟨e, rest, p, pm, i, -, -, rfl, rfl⟩
      · exact ⟨rfl, rfl, fun _ => rfl, fun _ _ => rfl⟩
      · exact absurd uncounted (by simp [Kernel.setupEnv])
      · exact absurd uncounted (by simp [Kernel.setupEnv, Kernel.admitEnv])
  | freed inUse free => exact inv.freed inUse free
  | other same => exact inv.other same

theorem NameInv.of_envInit (boot : envInit b = .ok s) : NameInv [] s := by
  obtain ⟨pm, p, rfl⟩ := envInit_ok boot
  exact ⟨nodup_slots, fun _ _ => rfl, rfl, rfl, fun before _ _ _ split => by simp at split,
    fun before _ _ _ split => by simp at split⟩

theorem nameRun_inv (boot : envInit b = .ok s) (run : Run nameStep s evs s') :
    NameInv evs s' :=
  run.history NameInv (.of_envInit boot) fun _ _ _ _ => NameInv.step

/-! ## When ids are names -/

/-- Every id leads to the slot it was made for. -/
theorem NameInv.lookup (inv : NameInv evs s) {before after : List NameEv} {id : Word}
    {admitted : Bool} (split : evs = before ++ .made e id admitted :: after) : envx id = e := by
  have slots : (slotsMade evs)[(slotsMade before).length]? = some e := by
    rw [split]
    simp [slotsMade, NameEv.name]
  have ids : (idsMade evs)[(slotsMade before).length]? = some id := by
    rw [split]
    simp [slotsMade, idsMade, NameEv.name]
  rw [inv.ids, idsFor_getElem?, slots] at ids
  rw [← Option.some.inj ids]
  exact envx_idAt _ e

theorem UniqueNames.freshCounts (names : UniqueNames evs s') (boot : envInit b = .ok s)
    (run : Run nameStep s evs s') : FreshCounts (slotsMade evs) := by
  rw [freshCounts_iff, ← (nameRun_inv boot run).ids]
  exact ⟨names.ne_zero, names.nodup⟩

/-- Along every run from boot, the ids made are names exactly when no slot gets two
of them at counts that agree in 21 bits, and slot 0 none when those are zero. -/
theorem env_names_iff (boot : envInit b = .ok s) (run : Run nameStep s evs s') :
    UniqueNames evs s' ↔ FreshCounts (slotsMade evs) := by
  refine ⟨fun names => names.freshCounts boot run, ?_⟩
  have inv := nameRun_inv boot run
  rw [freshCounts_iff, ← inv.ids]
  have made : ∀ before e id after, evs = before ++ NameEv.made e id true :: after →
      idsMade evs = idsMade before ++ id :: idsMade after := by
    intro before e id after split
    rw [split]
    simp [idsMade, NameEv.name]
  rintro ⟨ne_zero, nodup⟩
  refine ⟨ne_zero, nodup, fun before e id after split unfreed used => ?_,
    fun before e id after split freed => ?_⟩
  all_goals
    have issued : id ∈ idsMade evs := by
      rw [made before e id after split]
      exact List.mem_append_right _ List.mem_cons_self
    unfold envid2env
    rw [if_neg (ne_zero id issued), inv.lookup split]
  · obtain ⟨-, same⟩ := inv.alive before e id after split unfreed
    rw [if_neg (by simp [used, same])]
    rfl
  · rcases inv.dead before e id after split freed with isFree | renamed
    · rw [if_pos (.inl (inv.free_status e isFree))]
    · have other : (s'.envs e).envId ≠ id := by
        intro same
        rw [made before e id after split, List.nodup_append, List.nodup_cons] at nodup
        exact nodup.2.1.1 (same ▸ renamed)
      rw [if_pos (.inr other)]

theorem Kernel.start_names (inUse : e ∉ s.envFreeList) : SameNames s (s.start e) where
  free := rfl
  count := rfl
  envId := Kernel.start_field Env.envId fun _ => rfl
  status _ mem := Kernel.start_status fun eq => inUse (eq ▸ mem)

theorem Idle.make (idle : Idle s) : ∃ s' id p, nameStep s (.made 0 id true) s' ∧ Alone s' p ∧
    s'.envSchedList.Repr [] := by
  obtain ⟨s', p, alloc, alone, queue, count⟩ := idle.alloc
  have first : s.envFreeList.head? = some 0 := by
    rw [idle.free, slots_eq]
    rfl
  exact ⟨s', _, p, .made alloc first (by rw [count]; simp), alone, queue⟩

/-- An env is created in slot 0 and freed again. -/
theorem Idle.cycle (idle : Idle s) : ∃ s' id,
    Run nameStep s [.made 0 id true, .other, .freed 0] s' ∧ Idle s' := by
  obtain ⟨s₁, id, p, made, alone, queue⟩ := idle.make
  obtain ⟨s₂, freed, idle⟩ := alone.start.freed (queue.insertHead List.not_mem_nil)
  exact ⟨s₂, id, ((Run.single made).snoc (.other (Kernel.start_names alone.inUse))).snoc
    (.freed alone.start.inUse freed), idle⟩

/-- Two envs, of which the first is in a slot that was in use before. -/
theorem env_names_iff_reused : ∃ s evs s', envInit smallBoot = .ok s ∧ Run nameStep s evs s' ∧
    slotsMade evs = [0, 0, 1] ∧ UniqueNames evs s' := by
  obtain ⟨s, boot, idle⟩ := exists_idle
  obtain ⟨s₁, id, run, idle⟩ := idle.cycle
  obtain ⟨s₂, id', p, made, alone, -⟩ := idle.make
  obtain ⟨s₃, alloc, -, count⟩ := alone.alloc
  have second : nameStep s₂ (.made 1 _ true) s₃ :=
    .made alloc (by rw [alone.free]; rfl) (by rw [count]; simp)
  have run' := (run.snoc made).snoc second
  refine ⟨s, _, s₃, boot, run', rfl, (env_names_iff boot run').mpr ?_⟩
  exact freshCounts_of_length_lt (show 3 < 2 ^ 21 by decide)

/-! ## The counter wraps -/

theorem Idle.cycles (idle : Idle s) (n : Nat) : ∃ evs s', Run nameStep s evs s' ∧ Idle s' ∧
    slotsMade evs = List.replicate n 0 := by
  induction n with
  | zero => exact ⟨[], s, .refl s, idle, rfl⟩
  | succ n ih =>
      obtain ⟨evs, s₁, run, idle₁, made⟩ := ih
      obtain ⟨s₂, id, run₂, idle₂⟩ := idle₁.cycle
      refine ⟨_, s₂, run.trans run₂, idle₂, ?_⟩
      rw [List.replicate_succ', ← made]
      simp [slotsMade, NameEv.name]

/-- The 2²¹st id is 0 if it is made for slot 0. -/
theorem env_names_not_unique : ¬ ∀ (b : Boot) (s : Kernel) (evs : List NameEv) (s' : Kernel),
    envInit b = .ok s → Run nameStep s evs s' → UniqueNames evs s' := by
  intro all
  obtain ⟨s, boot, idle⟩ := exists_idle
  obtain ⟨evs, s', run, -, made⟩ := idle.cycles (2 ^ 21)
  have fresh := (all smallBoot _ evs s' boot run).freshCounts boot run
  rw [made] at fresh
  refine fresh.ne_zero (2 ^ 21 - 1) ?_ (by decide)
  rw [List.getElem?_replicate, if_pos (by decide)]

end Mos
