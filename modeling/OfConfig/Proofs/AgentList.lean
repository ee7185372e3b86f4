import OfConfig.Comm.AgentList

/-!
# `OfConfig.Proofs.AgentList`: the list of agents in memory

`HoldsList` says that the memory holds a list of records: following `next` from
`agents` visits them in order and ends with null, `prev` points to the record
before, and nothing else is allocated. Creating an agent appends to the list
(`HoldsList.new`), stopping or killing one removes it (`HoldsList.stop`).

* `agent_list_well_formed`: so it is after every sequence of calls that names
  agents in the list, and the lookups return the earliest agent with the id.
* `records_new`, `records_stop`, `HoldsList.records_getAgentBy`: the functions of
  `OfConfig.Comm.Agents`, which the transports are modelled with, are these on
  the list of records.
-/

set_option autoImplicit false

namespace OfConfig.Comm

open OfConfig.Lib.Linked

variable {γ : Type}
variable {fuel p : Nat}

/-! ### The agents that are there -/

/-- Agents created and not yet stopped, in the order of creation. -/
abbrev LiveAgents (γ : Type) := List (Nat × AgentInfo γ)

/-- What a call does to the agents. -/
def AgentCall.live (xs : LiveAgents γ) : AgentCall γ → LiveAgents γ
  | .new agent info => xs ++ [(agent, info)]
  | .stop agent => xs.filter (·.1 ≠ agent)
  | .kill agent => xs.filter (·.1 ≠ agent)

/-- The agents after calls. -/
def liveAfter (calls : List (AgentCall γ)) : LiveAgents γ := calls.foldl AgentCall.live []

/-- `calloc` returns memory that is not in use, and an agent that is stopped or
killed is in the list. -/
def AgentCall.Legal (xs : LiveAgents γ) : AgentCall γ → Prop
  | .new agent _ => agent ∉ xs.map Prod.fst
  | .stop agent => agent ∈ xs.map Prod.fst
  | .kill agent => agent ∈ xs.map Prod.fst

/-- All calls are legal when they are made. -/
def LegalCalls : LiveAgents γ → List (AgentCall γ) → Prop
  | _, [] => True
  | xs, c :: cs => c.Legal xs ∧ LegalCalls (c.live xs) cs

/-! ### The list in memory -/

/-- The field `next`. -/
def AgentHeap.nexts (h : AgentHeap γ) : Links := fun p => (h.mem p).map AgentCell.next

/-- The field `prev`. -/
def AgentHeap.prevs (h : AgentHeap γ) : Links := fun p => (h.mem p).map AgentCell.prev

/-- The memory holds the agents as a doubly linked list. -/
structure HoldsList (h : AgentHeap γ) (xs : LiveAgents γ) : Prop where
  /-- following `next` visits the agents, in order, and ends with null -/
  walk : Walk h.nexts h.agents (xs.map Prod.fst) none
  /-- `prev` is the agent before, null for the first -/
  back : Back h.prevs none (xs.map Prod.fst)
  /-- no agent is visited twice -/
  nodup : (xs.map Prod.fst).Nodup
  /-- every agent has its data -/
  info : ∀ x ∈ xs, (h.mem x.1).map AgentCell.info = some x.2
  /-- nothing else is allocated -/
  allocated : ∀ p, (h.mem p).isSome = true → p ∈ xs.map Prod.fst

theorem holdsList_noAgents : HoldsList (noAgents : AgentHeap γ) [] where
  walk := .nil none
  back := trivial
  nodup := List.nodup_nil
  info := by simp
  allocated := by simp [noAgents]

/-! ### Stopping an agent -/

section Stop

variable {h : AgentHeap γ} {agent : Nat} {c : AgentCell γ}

/-- A write as a change of all places. -/
theorem write_eq (hp : (h.mem p).isSome = true) (f : AgentCell γ → AgentCell γ) :
    h.write p f = some ⟨h.agents, fun q => (h.mem q).map (fun d => if q = p then f d else d)⟩ := by
  obtain ⟨d, hd⟩ := Option.isSome_iff_exists.mp hp
  rw [AgentHeap.write, hd]
  refine congrArg (fun m => some (AgentHeap.mk h.agents m)) (funext fun q => ?_)
  by_cases hq : q = p
  · subst hq
    rw [Function.update_self, hd]
    simp
  · rw [Function.update_of_ne hq]
    simp [hq]

/-- A write to one pointer of a record, as a change of this pointer in all
places. -/
theorem write_set_eq (get : AgentCell γ → Option Nat) (set : AgentCell γ → Option Nat → AgentCell γ)
    (hset : ∀ d, set d (get d) = d) {r : Nat} (hr : (h.mem r).isSome = true) (v : Option Nat) :
    h.write r (fun d => set d v) = some ⟨h.agents,
      fun p => (h.mem p).map (fun d => set d (if some r = some p then v else get d))⟩ := by
  rw [write_eq hr]
  congr 2
  funext p
  refine congrArg (fun f => Option.map f (h.mem p)) (funext fun d => ?_)
  by_cases hp : p = r
  · rw [if_pos hp, if_pos (congrArg some hp.symm)]
  · rw [if_neg hp, if_neg (fun hr => hp (Option.some.inj hr).symm), hset]

theorem linkBefore_eq {prev next : Option Nat}
    (hprev : ∀ r, prev = some r → (h.mem r).isSome = true) :
    h.linkBefore prev next = some ⟨if prev = none then next else h.agents,
      fun p => (h.mem p).map (fun d =>
        { d with next := if prev = some p then next else d.next })⟩ := by
  cases prev with
  | none => simp [AgentHeap.linkBefore]
  | some r =>
    exact write_set_eq AgentCell.next (fun d v => { d with next := v }) (fun _ => rfl)
      (hprev r rfl) next

theorem linkBehind_eq {next prev : Option Nat}
    (hnext : ∀ q, next = some q → (h.mem q).isSome = true) :
    h.linkBehind next prev = some ⟨h.agents,
      fun p => (h.mem p).map (fun d =>
        { d with prev := if next = some p then prev else d.prev })⟩ := by
  cases next with
  | none => simp [AgentHeap.linkBehind]
  | some q =>
    exact write_set_eq AgentCell.prev (fun d v => { d with prev := v }) (fun _ => rfl)
      (hnext q rfl) prev

/-- What is left at a place after an agent was stopped. -/
def stopCell (c : AgentCell γ) (p : Nat) (d : AgentCell γ) : AgentCell γ :=
  { info := d.info
    next := if c.prev = some p then c.next else d.next
    prev := if c.next = some p then c.prev else d.prev }

/-- The memory after an agent was stopped. -/
def stopped (agent : Nat) (c : AgentCell γ) (h : AgentHeap γ) : AgentHeap γ :=
  ⟨if c.prev = none then c.next else h.agents,
    fun p => if p = agent then none else (h.mem p).map (stopCell c p)⟩

/-- `srv_agent_stop` on a record whose neighbours are there: they are linked
with each other. -/
theorem srvAgentStop_run (hc : h.mem agent = some c)
    (hprev : ∀ r, c.prev = some r → r ≠ agent ∧ (h.mem r).isSome = true)
    (hnext : ∀ q, c.next = some q → q ≠ agent ∧ (h.mem q).isSome = true) :
    h.srvAgentStop agent = some (stopped agent c h) := by
  have hself : ¬ c.prev = some agent := fun heq => (hprev agent heq).1 rfl
  unfold AgentHeap.srvAgentStop
  rw [hc]
  dsimp only [Option.bind_eq_bind, Option.bind_some]
  rw [linkBefore_eq (fun r hr => (hprev r hr).2)]
  dsimp only [Option.bind_some]
  rw [hc]
  dsimp only [Option.map_some, Option.bind_some]
  rw [if_neg hself, linkBehind_eq (fun q hq => by simpa using (hnext q hq).2)]
  dsimp only [Option.bind_some]
  refine congrArg (fun m => some (AgentHeap.mk _ m)) (funext fun p => ?_)
  by_cases hp : p = agent
  · subst hp
    rw [Function.update_self, if_pos rfl]
  · rw [Function.update_of_ne hp, if_neg hp, Option.map_map]
    rfl

theorem mem_stopped (hp : p ≠ agent) :
    (stopped agent c h).mem p = (h.mem p).map (stopCell c p) := if_neg hp

theorem nexts_stopped (hp : p ≠ agent) (hprev : c.prev ≠ some p) :
    (stopped agent c h).nexts p = h.nexts p := by
  unfold AgentHeap.nexts
  rw [mem_stopped hp, Option.map_map]
  refine congrArg (fun f => Option.map f (h.mem p)) (funext fun d => ?_)
  exact if_neg hprev

theorem nexts_stopped_prev (hp : p ≠ agent) (hprev : c.prev = some p)
    (halloc : (h.mem p).isSome = true) : (stopped agent c h).nexts p = some c.next := by
  obtain ⟨d, hd⟩ := Option.isSome_iff_exists.mp halloc
  unfold AgentHeap.nexts
  rw [mem_stopped hp, hd]
  exact congrArg some (if_pos hprev)

theorem prevs_stopped (hp : p ≠ agent) (hnext : c.next ≠ some p) :
    (stopped agent c h).prevs p = h.prevs p := by
  unfold AgentHeap.prevs
  rw [mem_stopped hp, Option.map_map]
  refine congrArg (fun f => Option.map f (h.mem p)) (funext fun d => ?_)
  exact if_neg hnext

theorem prevs_stopped_next (hp : p ≠ agent) (hnext : c.next = some p)
    (halloc : (h.mem p).isSome = true) : (stopped agent c h).prevs p = some c.prev := by
  obtain ⟨d, hd⟩ := Option.isSome_iff_exists.mp halloc
  unfold AgentHeap.prevs
  rw [mem_stopped hp, hd]
  exact congrArg some (if_pos hnext)

/-- An agent in the list, with the ones before and behind it. -/
structure StopAt (h : AgentHeap γ) (ps : List Nat) (agent : Nat) (c : AgentCell γ)
    (qs : List Nat) : Prop where
  walk : Walk h.nexts h.agents (ps ++ agent :: qs) none
  back : Back h.prevs none (ps ++ agent :: qs)
  nodup : (ps ++ agent :: qs).Nodup
  cell : h.mem agent = some c

variable {ps qs : List Nat}

theorem StopAt.alloc (hs : StopAt h ps agent c qs) (hp : p ∈ ps ++ agent :: qs) :
    (h.mem p).isSome = true := by
  have := hs.walk.isSome p hp
  simpa only [AgentHeap.nexts, Option.isSome_map] using this

theorem StopAt.not_mem (hs : StopAt h ps agent c qs) :
    agent ∉ ps ∧ agent ∉ qs ∧ ps.Disjoint qs := by
  have hnd := List.nodup_append.mp hs.nodup
  refine ⟨fun hmem => hnd.2.2 agent hmem agent List.mem_cons_self rfl,
    (List.nodup_cons.mp hnd.2.1).1, fun p hp hq => hnd.2.2 p hp p (List.mem_cons_of_mem _ hq) rfl⟩

/-- `prev` is the last agent before, and `next` leads on. -/
theorem StopAt.links (hs : StopAt h ps agent c qs) :
    c.prev = ps.getLast? ∧ Walk h.nexts c.next qs none := by
  obtain ⟨r, -, hback⟩ := walk_append_iff.mp hs.walk
  obtain ⟨-, s, hnext, htail⟩ := walk_cons_iff.mp hback
  obtain ⟨-, hprev, -⟩ := back_append_iff.mp hs.back
  rw [AgentHeap.nexts, hs.cell] at hnext
  rw [AgentHeap.prevs, hs.cell] at hprev
  obtain rfl := Option.some.inj hnext
  refine ⟨(Option.some.inj hprev).trans ?_, htail⟩
  rw [lastOr, Option.or_none]

theorem StopAt.mem_of_prev (hs : StopAt h ps agent c qs) (hp : c.prev = some p) : p ∈ ps :=
  List.mem_of_getLast? (hs.links.1.symm.trans hp)

theorem StopAt.head_of_next (hs : StopAt h ps agent c qs) (hp : c.next = some p) :
    ∃ rest, qs = p :: rest := by
  have hwalk := hs.links.2
  rw [hp] at hwalk
  cases hwalk with
  | cons _ _ => exact ⟨_, rfl⟩

theorem StopAt.run (hs : StopAt h ps agent c qs) :
    h.srvAgentStop agent = some (stopped agent c h) := by
  obtain ⟨hps, hqs, -⟩ := hs.not_mem
  refine srvAgentStop_run hs.cell (fun r hr => ?_) (fun q hq => ?_)
  · have hmem := hs.mem_of_prev hr
    exact ⟨fun heq => hps (heq ▸ hmem), hs.alloc (by simp [hmem])⟩
  · obtain ⟨rest, rfl⟩ := hs.head_of_next hq
    exact ⟨fun heq => hqs (heq ▸ List.mem_cons_self), hs.alloc (by simp)⟩

/-- Following `next` now leaves the agent out. -/
theorem StopAt.walk_stopped (hs : StopAt h ps agent c qs) :
    Walk (stopped agent c h).nexts (stopped agent c h).agents (ps ++ qs) none := by
  obtain ⟨hps, hqs, hdis⟩ := hs.not_mem
  obtain ⟨hprev, -⟩ := hs.links
  have hnext : h.nexts agent = some c.next := by rw [AgentHeap.nexts, hs.cell]; rfl
  have hwalk : Walk (stopped agent c h).nexts (if ps = [] then c.next else h.agents)
      (ps ++ qs) none := by
    refine hs.walk.remove hnext (fun b hb => ?_) (fun b hb => ?_) (fun b hb => ?_)
    · have hmem : b ∈ ps := (List.dropLast_sublist ps).subset hb
      refine nexts_stopped (fun heq => hps (heq ▸ hmem)) (fun heq => ?_)
      -- the last agent before is not among the others
      rw [hprev] at heq
      obtain ⟨ys, rfl⟩ := List.getLast?_eq_some_iff.mp heq
      rw [List.dropLast_concat] at hb
      have hnd := (List.nodup_append.mp (List.nodup_append.mp hs.nodup).1).2.2
      exact hnd b hb b (List.mem_singleton.mpr rfl) rfl
    · exact nexts_stopped (fun heq => hqs (heq ▸ hb)) (fun heq => hdis (hs.mem_of_prev heq) hb)
    · have hmem : b ∈ ps := List.mem_of_getLast? hb
      exact nexts_stopped_prev (fun heq => hps (heq ▸ hmem)) (hprev.trans hb)
        (hs.alloc (by simp [hmem]))
  have hagents : (stopped agent c h).agents = if ps = [] then c.next else h.agents := by
    unfold stopped
    dsimp only
    rw [hprev]
    simp only [List.getLast?_eq_none_iff]
  rw [hagents]
  exact hwalk

/-- `prev` now leaves the agent out. -/
theorem StopAt.back_stopped (hs : StopAt h ps agent c qs) :
    Back (stopped agent c h).prevs none (ps ++ qs) := by
  obtain ⟨hps, hqs, hdis⟩ := hs.not_mem
  obtain ⟨hprev, htail⟩ := hs.links
  obtain ⟨hfront, -, hback⟩ := back_append_iff.mp hs.back
  refine back_append_iff.mpr ⟨hfront.frame fun b hb => ?_, ?_⟩
  · refine prevs_stopped (fun heq => hps (heq ▸ hb)) (fun heq => ?_)
    obtain ⟨rest, rfl⟩ := hs.head_of_next heq
    exact hdis hb List.mem_cons_self
  · cases qs with
    | nil => trivial
    | cons q qs =>
      obtain ⟨hnext, -⟩ := walk_cons_iff.mp htail
      have hlast : lastOr none ps = c.prev := by rw [lastOr, Option.or_none, hprev]
      refine ⟨?_, hback.2.frame fun b hb => ?_⟩
      · rw [hlast]
        exact prevs_stopped_next (fun heq => hqs (heq ▸ List.mem_cons_self)) hnext
          (hs.alloc (by simp))
      · refine prevs_stopped (fun heq => hqs (heq ▸ List.mem_cons_of_mem _ hb)) (fun heq => ?_)
        have hnd := (List.nodup_append.mp hs.nodup).2.1
        obtain rfl := Option.some.inj (hnext.symm.trans heq)
        exact (List.nodup_cons.mp (List.nodup_cons.mp hnd).2).1 hb

/-- `srv_agent_stop` removes the agent from the list. -/
theorem HoldsList.stop {xs : LiveAgents γ} (hl : HoldsList h xs)
    (ha : agent ∈ xs.map Prod.fst) :
    ∃ h', h.srvAgentStop agent = some h' ∧ HoldsList h' (xs.filter (·.1 ≠ agent)) := by
  obtain ⟨x, hx, rfl⟩ := List.mem_map.mp ha
  obtain ⟨ys, zs, rfl⟩ := List.append_of_mem hx
  have hmap : (ys ++ x :: zs).map Prod.fst = ys.map Prod.fst ++ x.1 :: zs.map Prod.fst := by
    rw [List.map_append, List.map_cons]
  obtain ⟨c, hc, -⟩ := Option.map_eq_some_iff.mp (hl.info x hx)
  have hs : StopAt h (ys.map Prod.fst) x.1 c (zs.map Prod.fst) :=
    ⟨hmap ▸ hl.walk, hmap ▸ hl.back, hmap ▸ hl.nodup, hc⟩
  obtain ⟨hys, hzs, -⟩ := hs.not_mem
  have hkeep : ∀ (ws : LiveAgents γ), x.1 ∉ ws.map Prod.fst → ws.filter (·.1 ≠ x.1) = ws := by
    intro ws hws
    refine List.filter_eq_self.mpr fun y hy => decide_eq_true fun heq => ?_
    exact hws (heq ▸ List.mem_map_of_mem hy)
  have hfilter : (ys ++ x :: zs).filter (·.1 ≠ x.1) = ys ++ zs := by
    rw [List.filter_append, List.filter_cons_of_neg (by simp), hkeep ys hys, hkeep zs hzs]
  refine ⟨_, hs.run, ?_⟩
  rw [hfilter]
  constructor
  · rw [List.map_append]
    exact hs.walk_stopped
  · rw [List.map_append]
    exact hs.back_stopped
  · refine List.Nodup.sublist ?_ hl.nodup
    exact (List.Sublist.append_left (List.sublist_cons_self x zs) ys).map _
  · intro y hy
    have hne : y.1 ≠ x.1 := by
      rintro heq
      rcases List.mem_append.mp hy with hy | hy
      · exact hys (heq ▸ List.mem_map_of_mem hy)
      · exact hzs (heq ▸ List.mem_map_of_mem hy)
    have hmem : y ∈ ys ++ x :: zs := by
      rcases List.mem_append.mp hy with hy | hy
      · simp [hy]
      · simp [hy]
    rw [mem_stopped hne, Option.map_map, ← hl.info y hmem]
    rfl
  · intro p hp
    have hne : p ≠ x.1 := by
      rintro rfl
      have hgone : (stopped x.1 c h).mem x.1 = none := if_pos rfl
      rw [hgone] at hp
      cases hp
    rw [mem_stopped hne, Option.isSome_map] at hp
    have hmem := hl.allocated p hp
    rw [hmap] at hmem
    simpa [hne] using hmem

end Stop

/-! ### Creating an agent -/

section New

variable {h : AgentHeap γ} {agent : Nat} {info : AgentInfo γ} {last : Option Nat}

/-- The memory after an agent was put behind the last one. -/
def created (agent : Nat) (info : AgentInfo γ) (last : Option Nat) (h : AgentHeap γ) :
    AgentHeap γ :=
  ⟨h.agents.or (some agent), fun p =>
    if p = agent then some ⟨info, none, last⟩
    else (h.mem p).map (fun d => { d with next := if last = some p then some agent else d.next })⟩

theorem mem_created_self : (created agent info last h).mem agent = some ⟨info, none, last⟩ :=
  if_pos rfl

theorem mem_created (hp : p ≠ agent) : (created agent info last h).mem p =
    (h.mem p).map (fun d => { d with next := if last = some p then some agent else d.next }) :=
  if_neg hp

theorem nexts_created (hp : p ≠ agent) (hlast : last ≠ some p) :
    (created agent info last h).nexts p = h.nexts p := by
  unfold AgentHeap.nexts
  rw [mem_created hp, Option.map_map]
  refine congrArg (fun f => Option.map f (h.mem p)) (funext fun d => ?_)
  exact if_neg hlast

theorem nexts_created_last (hp : p ≠ agent) (hlast : last = some p)
    (halloc : (h.mem p).isSome = true) :
    (created agent info last h).nexts p = some (some agent) := by
  obtain ⟨d, hd⟩ := Option.isSome_iff_exists.mp halloc
  unfold AgentHeap.nexts
  rw [mem_created hp, hd]
  exact congrArg some (if_pos hlast)

theorem prevs_created (hp : p ≠ agent) : (created agent info last h).prevs p = h.prevs p := by
  unfold AgentHeap.prevs
  rw [mem_created hp, Option.map_map]
  rfl

variable {xs : LiveAgents γ}

theorem HoldsList.isSome (hl : HoldsList h xs) (hp : p ∈ xs.map Prod.fst) :
    (h.mem p).isSome = true := by
  have := hl.walk.isSome p hp
  simpa only [AgentHeap.nexts, Option.isSome_map] using this

/-- `srv_agent_new` finds the last agent and puts the new one behind it. -/
theorem HoldsList.new_run (hl : HoldsList h xs) (hnew : agent ∉ xs.map Prod.fst)
    (hfuel : xs.length < fuel) :
    h.srvAgentNew fuel agent info =
      some (created agent info (xs.map Prod.fst).getLast? h) := by
  have hne : ∀ p ∈ xs.map Prod.fst, p ≠ agent := fun p hp heq => hnew (heq ▸ hp)
  -- the list as it is after `calloc`
  have hwalk : Walk (fun p => (Function.update h.mem agent (some ⟨info, none, none⟩) p).map
      AgentCell.next) h.agents (xs.map Prod.fst) none :=
    hl.walk.frame fun p hp => by rw [Function.update_of_ne (hne p hp)]; rfl
  have hsearch := search_eq (fun c : AgentCell γ => c.next.isNone) hwalk
    (by rwa [List.length_map] : (xs.map Prod.fst).length < fuel)
  rw [find_last hwalk] at hsearch
  unfold AgentHeap.srvAgentNew
  dsimp only
  cases hag : h.agents with
  | none =>
    rw [hag] at hwalk
    have hnil : xs.map Prod.fst = [] := by
      cases hps : xs.map Prod.fst with
      | nil => rfl
      | cons p ps =>
        rw [hps] at hwalk
        cases hwalk
    rw [hnil]
    simp only [created, hag, Option.none_or, List.getLast?_nil]
    refine congrArg (fun m => some (AgentHeap.mk _ m)) (funext fun p => ?_)
    by_cases hp : p = agent
    · subst hp
      rw [Function.update_self, if_pos rfl]
    · rw [Function.update_of_ne hp, if_neg hp]
      simp
  | some first =>
    rw [hag] at hsearch hwalk
    dsimp only
    rw [hsearch]
    cases hlast : (xs.map Prod.fst).getLast? with
    | none =>
      rw [List.getLast?_eq_none_iff.mp hlast] at hwalk
      cases walk_nil_iff.mp hwalk
    | some r =>
      have hr : r ∈ xs.map Prod.fst := List.mem_of_getLast? hlast
      dsimp only [Option.bind_eq_bind, Option.bind_some]
      rw [write_eq (by
        dsimp only
        rw [Function.update_of_ne (hne r hr)]
        exact hl.isSome hr)]
      dsimp only [Option.bind_some]
      rw [write_eq (by simp)]
      simp only [created, hag, Option.some_or]
      refine congrArg (fun m => some (AgentHeap.mk _ m)) (funext fun p => ?_)
      by_cases hp : p = agent
      · subst hp
        rw [Function.update_self, if_pos rfl]
        simp [(hne r hr).symm]
      · rw [Function.update_of_ne hp, if_neg hp, Option.map_map]
        refine congrArg (fun f => Option.map f (h.mem p)) (funext fun d => ?_)
        by_cases hpr : p = r
        · simp [hpr, hne r hr]
        · simp [hp, hpr, Ne.symm hpr]

theorem HoldsList.new (hl : HoldsList h xs) (hnew : agent ∉ xs.map Prod.fst) :
    HoldsList (created agent info (xs.map Prod.fst).getLast? h) (xs ++ [(agent, info)]) := by
  have hne : ∀ p ∈ xs.map Prod.fst, p ≠ agent := fun p hp heq => hnew (heq ▸ hp)
  have hself : (created agent info (xs.map Prod.fst).getLast? h).nexts agent = some none := by
    rw [AgentHeap.nexts, mem_created_self]
    rfl
  have hprev : (created agent info (xs.map Prod.fst).getLast? h).prevs agent =
      some (lastOr none (xs.map Prod.fst)) := by
    rw [AgentHeap.prevs, mem_created_self, lastOr, Option.or_none]
    rfl
  have hmap : (xs ++ [(agent, info)]).map Prod.fst = xs.map Prod.fst ++ [agent] := by
    rw [List.map_append]
    rfl
  constructor
  · rw [hmap]
    refine walk_append_iff.mpr ⟨some agent, ?_, .cons hself (.nil none)⟩
    cases hlast : (xs.map Prod.fst).getLast? with
    | none =>
      have hnil := List.getLast?_eq_none_iff.mp hlast
      have hagents : h.agents = none := walk_nil_iff.mp (hnil ▸ hl.walk)
      rw [hnil, created, hagents]
      exact .nil _
    | some r =>
      obtain ⟨ys, hys⟩ := List.getLast?_eq_some_iff.mp hlast
      have hmem : r ∈ xs.map Prod.fst := by simp [hys]
      have hwalk := hl.walk
      have hnd := hl.nodup
      rw [hys] at hwalk hnd ⊢
      have hagents : (created agent info (some r) h).agents = h.agents := by
        cases hag : h.agents with
        | none =>
          rw [hag] at hwalk
          cases ys with
          | nil => cases hwalk
          | cons y ys => cases hwalk
        | some p => simp only [created, hag, Option.some_or]
      rw [hagents]
      refine hwalk.relink (fun b hb => ?_)
        (nexts_created_last (hne r hmem) rfl (hl.isSome hmem))
      refine nexts_created (hne b (by simp [hys, hb])) (fun heq => ?_)
      obtain rfl := Option.some.inj heq
      exact (List.nodup_append.mp hnd).2.2 r hb r (List.mem_singleton.mpr rfl) rfl
  · rw [hmap]
    exact back_append_iff.mpr ⟨hl.back.frame fun b hb => prevs_created (hne b hb), hprev, trivial⟩
  · rw [hmap]
    exact List.nodup_append.mpr ⟨hl.nodup, List.nodup_singleton agent, fun p hp q hq => by
      obtain rfl := List.mem_singleton.mp hq
      exact hne p hp⟩
  · intro x hx
    rcases List.mem_append.mp hx with hx | hx
    · rw [mem_created (hne x.1 (List.mem_map_of_mem hx)), Option.map_map, ← hl.info x hx]
      rfl
    · obtain rfl := List.mem_singleton.mp hx
      rw [mem_created_self]
      rfl
  · intro p hp
    rw [hmap]
    by_cases heq : p = agent
    · simp [heq]
    · rw [mem_created heq, Option.isSome_map] at hp
      exact List.mem_append_left _ (hl.allocated p hp)

end New

/-! ### Lookups -/

/-- The lookups return the first agent of the list that is asked for. -/
theorem HoldsList.getAgentBy {h : AgentHeap γ} {xs : LiveAgents γ} (hl : HoldsList h xs)
    (p : AgentInfo γ → Bool) (hfuel : xs.length < fuel) :
    h.getAgentBy fuel p = some ((xs.find? (fun x => p x.2)).map Prod.fst) := by
  have hfind : ∀ ys : LiveAgents γ, (∀ y ∈ ys, y ∈ xs) →
      (ys.map Prod.fst).find? (fun q => (h.mem q).any (fun c => p c.info)) =
        (ys.find? (fun x => p x.2)).map Prod.fst := by
    intro ys
    induction ys with
    | nil => exact fun _ => rfl
    | cons y ys ih =>
      intro hsub
      obtain ⟨c, hc, hinfo⟩ := Option.map_eq_some_iff.mp (hl.info y (hsub y List.mem_cons_self))
      rw [List.map_cons, List.find?_cons, List.find?_cons, hc, Option.any_some, hinfo,
        ih (fun z hz => hsub z (List.mem_cons_of_mem _ hz))]
      cases p y.2 with
      | true => rfl
      | false => rfl
  unfold AgentHeap.getAgentBy
  rw [search_eq _ hl.walk (by rwa [List.length_map]), hfind xs (fun _ hx => hx)]

/-! ### The list of records

`OfConfig.Comm.Agents` has the records without the memory; the index of a record
stands for the pointer. -/

/-- The records, in order. -/
def records (xs : LiveAgents γ) : List (AgentInfo γ) := xs.map Prod.snd

theorem records_new (xs : LiveAgents γ) (agent : Nat) (session : Session) (id : String)
    (pid : UInt16) (origin : γ) :
    records ((AgentCall.new agent ⟨id, pid.toNat, session, origin⟩).live xs) =
      srvAgentNew session id pid origin (records xs) := by
  simp [records, AgentCall.live, srvAgentNew]

theorem records_stop {xs : LiveAgents γ} (hnodup : (xs.map Prod.fst).Nodup) {agent : Nat}
    (hmem : agent ∈ xs.map Prod.fst) :
    records ((AgentCall.stop agent).live xs) =
      srvAgentStop ((xs.map Prod.fst).idxOf agent) (records xs) := by
  simp only [AgentCall.live, records, srvAgentStop]
  induction xs with
  | nil => simp at hmem
  | cons x xs ih =>
    rw [List.map_cons, List.nodup_cons] at hnodup
    by_cases hx : x.1 = agent
    · -- the agent is the first one, and there is no other
      have hall : ∀ y ∈ xs, decide (y.1 ≠ agent) = true := by
        intro y hy
        rw [decide_eq_true_eq]
        intro hya
        exact hnodup.1 (hx.trans hya.symm ▸ List.mem_map_of_mem hy)
      rw [List.filter_cons_of_neg (by simpa using hx), List.filter_eq_self.mpr hall,
        List.map_cons, List.map_cons, List.idxOf_cons_eq _ hx, List.eraseIdx_cons_zero]
    · have hmem' : agent ∈ xs.map Prod.fst := by
        rw [List.map_cons, List.mem_cons] at hmem
        exact hmem.resolve_left (fun h => hx h.symm)
      rw [List.filter_cons_of_pos (by simpa using hx), List.map_cons, List.map_cons,
        List.map_cons, List.idxOf_cons_ne _ hx, List.eraseIdx_cons_succ, ih hnodup.2 hmem']

/-- The lookups on the list in memory return the pointer to the record that the
lookups on the list of records find. -/
theorem HoldsList.records_getAgentBy {h : AgentHeap γ} {xs : LiveAgents γ} (hl : HoldsList h xs)
    (p : AgentInfo γ → Bool) (hfuel : xs.length < fuel) :
    h.getAgentBy fuel p =
      some (((records xs).findIdx? p).bind (fun i => (xs.map Prod.fst)[i]?)) := by
  rw [hl.getAgentBy p hfuel]
  refine congrArg some ?_
  clear hl hfuel
  unfold records
  induction xs with
  | nil => rfl
  | cons x xs ih =>
    rw [List.find?_cons, List.map_cons, List.map_cons, List.findIdx?_cons]
    cases p x.2 with
    | true => rfl
    | false => simpa [Option.bind_map, Function.comp_def] using ih

/-! ### Sequences of calls -/

section Calls

variable {h : AgentHeap γ} {xs : LiveAgents γ} {fuel : Nat}

/-- One legal call. -/
theorem HoldsList.call (hl : HoldsList h xs) (c : AgentCall γ) (hlegal : c.Legal xs)
    (hfuel : xs.length < fuel) : ∃ h', c.run fuel h = some h' ∧ HoldsList h' (c.live xs) := by
  cases c with
  | new agent info => exact ⟨_, hl.new_run hlegal hfuel, hl.new hlegal⟩
  | stop agent => exact hl.stop hlegal
  | kill agent =>
    obtain ⟨h', hrun, hl'⟩ := hl.stop hlegal
    obtain ⟨x, hx, rfl⟩ := List.mem_map.mp hlegal
    obtain ⟨c, hc, -⟩ := Option.map_eq_some_iff.mp (hl.info x hx)
    refine ⟨h', ?_, hl'⟩
    simp only [AgentCall.run, AgentHeap.srvAgentKill, hc, hrun, Option.bind_eq_bind,
      Option.bind_some, Option.pure_def, Option.map_some]

theorem length_live_le (xs : LiveAgents γ) (c : AgentCall γ) :
    (c.live xs).length ≤ xs.length + 1 := by
  cases c with
  | new agent info => rw [AgentCall.live, List.length_append]; exact Nat.le_refl _
  | stop agent => exact Nat.le_succ_of_le (List.length_filter_le _ _)
  | kill agent => exact Nat.le_succ_of_le (List.length_filter_le _ _)

/-- Legal calls one after the other. -/
theorem HoldsList.calls (calls : List (AgentCall γ)) (hl : HoldsList h xs)
    (hlegal : LegalCalls xs calls) (hfuel : xs.length + calls.length < fuel) :
    ∃ h', runAgentCalls fuel calls h = some h' ∧
      HoldsList h' (calls.foldl AgentCall.live xs) ∧
      (calls.foldl AgentCall.live xs).length < fuel := by
  induction calls generalizing h xs with
  | nil => exact ⟨h, rfl, hl, by simpa using hfuel⟩
  | cons c cs ih =>
    have hlen := length_live_le xs c
    rw [List.length_cons] at hfuel
    have hroom : xs.length < fuel := by omega
    obtain ⟨h₁, hrun, hl₁⟩ := hl.call c hlegal.1 hroom
    obtain ⟨h₂, hruns, hl₂, hlen₂⟩ := ih hl₁ hlegal.2 (by omega)
    exact ⟨h₂, by rw [runAgentCalls, hrun, Option.bind_some, hruns], hl₂, hlen₂⟩

end Calls

/-- For every sequence of calls in which the agents that are stopped or killed
are in the list: the calls run through, the memory holds the agents created and
not yet stopped as a doubly linked list, in the order of creation, and the
lookups return the earliest one with the id. -/
theorem agent_list_well_formed (calls : List (AgentCall γ)) (hlegal : LegalCalls [] calls)
    (fuel : Nat) (hfuel : calls.length < fuel) :
    ∃ h, runAgentCalls fuel calls noAgents = some h ∧ HoldsList h (liveAfter calls) ∧
      (∀ id, h.srvGetAgentByAgentid fuel id =
        some (((liveAfter calls).find? (fun x => x.2.id = id)).map Prod.fst)) ∧
      (∀ id, h.srvGetAgentByNcsid fuel id =
        some (((liveAfter calls).find? (fun x => x.2.session.ncsid = id)).map Prod.fst)) := by
  obtain ⟨h, hrun, hl, hlen⟩ := holdsList_noAgents.calls calls hlegal
    (by rw [List.length_nil]; omega : ([] : LiveAgents γ).length + calls.length < fuel)
  exact ⟨h, hrun, hl, fun id => hl.getAgentBy _ hlen, fun id => hl.getAgentBy _ hlen⟩

/-- An agent with the given ids. -/
def sampleAgent (id ncsid : String) : AgentInfo Unit :=
  { id := id, pid := 100, session := ⟨ncsid, "user", []⟩, origin := () }

/-- Three agents, of which the first is stopped and its memory used again, and
the second is killed. -/
def sampleCalls : List (AgentCall Unit) :=
  [.new 1 (sampleAgent "4" "s1"), .new 2 (sampleAgent "5" "s2"), .new 3 (sampleAgent "6" "s3"),
    .stop 1, .new 1 (sampleAgent "4" "s4"), .kill 2]

theorem agent_list_well_formed_sample :
    (liveAfter sampleCalls).map Prod.fst = [3, 1] ∧
    ∃ h, runAgentCalls 7 sampleCalls noAgents = some h ∧ HoldsList h (liveAfter sampleCalls) := by
  have hlegal : LegalCalls [] sampleCalls := by
    refine ⟨?_, ?_, ?_, ?_, ?_, ?_, trivial⟩ <;> simp [AgentCall.Legal, AgentCall.live]
  obtain ⟨h, hrun, hl, -⟩ := agent_list_well_formed sampleCalls hlegal 7 (by decide)
  exact ⟨by decide, h, hrun, hl⟩

end OfConfig.Comm
