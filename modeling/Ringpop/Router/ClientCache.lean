/-
# The clients of a router

`router/router.go`: a router keeps a client for each destination.  `GetClient` looks for it
with the lock taken for reading, and if there is none, it takes the lock for writing, looks
again and has the factory make one.  `HandleEvent` takes the clients of members out that are
reported as faulty or gone.  Both are called from any number of goroutines at any time, so
that each taking and each use of the lock is a step of its own here.

What `Lookup` and `WhoAmI` return is what a call brings along.  Clients for other hosts are
numbered as they are made; `made` and `log` keep what has been made and what has happened
to the cache, and nothing reads them.

Whatever the interleaving, each client in the cache is one for its destination, and no
destination gets a second client unless its first one was taken out (`router_one_client`).
What `GetClient` returns was in the cache at some time during the call
(`calls_see_cache`).
-/

import Ringpop.Concurrency.ReadWriteLock
import Ringpop.Facade.Instance

namespace Ringpop
namespace Router

open Swim Threads

/-- A client of the factory: the local one, or one for a host. -/
inductive Client where
  | localClient
  | remoteClient (hostPort : String) (number : ℕ)
deriving DecidableEq, Repr

/-- What happens to the cache. -/
inductive CacheEvent where
  | cached (dest : String) (client : Client)
  | removed (hostport : String)
deriving DecidableEq, Repr

/-- `router`. -/
structure Cache where
  clientCache : String → Option Client
  made : List String
  log : List CacheEvent

/-- `New`. -/
def Cache.new : Cache := ⟨fun _ => none, [], []⟩

/-- A call: `GetClient`, with what `Lookup` and `WhoAmI` return, or `HandleEvent`. -/
inductive RouterCall where
  | getClient (dest me : Except String String)
  | handleEvent (event : MemberlistEvent)

/-- Where a goroutine is. -/
inductive Place where
  | getClient (dest me : Except String String)
  | rLock (dest : String) (me : Except String String)
  | read (dest : String) (me : Except String String)
  | rUnlock (dest : String) (me : Except String String) (client : Option Client)
  | test (dest : String) (me : Except String String) (client : Option Client)
  | lock (dest : String) (me : Except String String)
  | check (dest : String) (me : Except String String)
  | whoAmI (dest : String) (me : Except String String)
  | make (dest me : String)
  | store (dest : String) (client : Client)
  | unlock (dest : String) (client : Except String Client)
  | returned (dest : Except String String) (client : Except String Client)
  | handleEvent (changes : List Change)
  | removeClient (hostport : String) (changes : List Change)
  | delete (hostport : String) (changes : List Change)
  | removed (changes : List Change)
  | handled
deriving DecidableEq

/-- The changes of an event. -/
def changesOf : MemberlistEvent → List Change
  | .changesReceived changes => changes
  | _ => []

/-- `GetClient` and `HandleEvent`. -/
def router : RWProgram Cache Place RouterCall where
  enter
    | .getClient dest me => .getClient dest me
    | .handleEvent event => .handleEvent (changesOf event)
  instr
    | .getClient dest me => .act fun r =>
        match dest with
        | .error err => (r, .returned dest (.error err))
        | .ok dest => (r, .rLock dest me)
    | .rLock dest me => .rlock (.read dest me)
    | .read dest me => .act fun r => (r, .rUnlock dest me (r.clientCache dest))
    | .rUnlock dest me client => .runlock (.test dest me client)
    | .test dest me client => .act fun r =>
        match client with
        | some client => (r, .returned (.ok dest) (.ok client))
        | none => (r, .lock dest me)
    | .lock dest me => .lock (.check dest me)
    -- double check it is not created between read and complete lock
    | .check dest me => .act fun r =>
        match r.clientCache dest with
        | some client => (r, .unlock dest (.ok client))
        | none => (r, .whoAmI dest me)
    | .whoAmI dest me => .act fun r =>
        match me with
        | .error err => (r, .unlock dest (.error err))
        | .ok me => (r, .make dest me)
    | .make dest me => .act fun r =>
        if dest = me then (r, .store dest .localClient)
        else ({ r with made := r.made ++ [dest] }, .store dest (.remoteClient dest r.made.length))
    | .store dest client => .act fun r =>
        ({ r with
            clientCache := Function.update r.clientCache dest (some client)
            log := r.log ++ [.cached dest client] }, .unlock dest (.ok client))
    | .unlock dest client => .unlock (.returned (.ok dest) client)
    | .returned _ _ => .halt
    | .handleEvent changes => .act fun r =>
        match changes with
        | [] => (r, .handled)
        | change :: changes =>
            if Facade.isDown change.status then (r, .removeClient change.address changes)
            else (r, .handleEvent changes)
    | .removeClient hostport changes => .lock (.delete hostport changes)
    | .delete hostport changes => .act fun r =>
        ({ r with
            clientCache := Function.update r.clientCache hostport none
            log := r.log ++ [.removed hostport] }, .removed changes)
    | .removed changes => .unlock (.handleEvent changes)
    | .handled => .halt

/-- How the lock is held. -/
def mode : Place → RWMode
  | .read _ _ => .reading
  | .rUnlock _ _ _ => .reading
  | .check _ _ => .writing
  | .whoAmI _ _ => .writing
  | .make _ _ => .writing
  | .store _ _ => .writing
  | .unlock _ _ => .writing
  | .delete _ _ => .writing
  | .removed _ => .writing
  | _ => .free

/-- The goroutine has ended. -/
def Place.Ended : Place → Prop
  | .returned _ _ => True
  | .handled => True
  | _ => False

/-- The destination that a call of `GetClient` is about. -/
def Place.dest : Place → Option String
  | .getClient (.ok dest) _ => some dest
  | .rLock dest _ => some dest
  | .read dest _ => some dest
  | .rUnlock dest _ _ => some dest
  | .test dest _ _ => some dest
  | .lock dest _ => some dest
  | .check dest _ => some dest
  | .whoAmI dest _ => some dest
  | .make dest _ => some dest
  | .store dest _ => some dest
  | .unlock dest _ => some dest
  | .returned (.ok dest) _ => some dest
  | _ => none

/-- The client that a call of `GetClient` has found in the cache or put there. -/
def Place.client : Place → Option Client
  | .rUnlock _ _ client => client
  | .test _ _ client => client
  | .unlock _ (.ok client) => some client
  | .returned _ (.ok client) => some client
  | _ => none

/-- The servers that a call of `HandleEvent` still has to remove. -/
def Place.left : Place → List String
  | .handleEvent changes => (changes.filter (Facade.isDown ·.status)).map Change.address
  | .removeClient hostport changes =>
      hostport :: (changes.filter (Facade.isDown ·.status)).map Change.address
  | .delete hostport changes =>
      hostport :: (changes.filter (Facade.isDown ·.status)).map Change.address
  | .removed changes => (changes.filter (Facade.isDown ·.status)).map Change.address
  | _ => []

theorem annotated : router.Annotated mode where
  enter c := by cases c <;> rfl
  rlock place place' h := by
    cases place <;> cases h
    exact ⟨rfl, rfl⟩
  runlock place place' h := by
    cases place <;> cases h
    exact ⟨rfl, rfl⟩
  lock place place' h := by
    cases place <;> cases h <;> exact ⟨rfl, rfl⟩
  unlock place place' h := by
    cases place <;> cases h <;> exact ⟨rfl, rfl⟩
  act place f h data := by
    cases place <;> cases h <;> dsimp only <;> (try split) <;> (try split) <;> simp [mode]
  halt place h := by cases place <;> first | rfl | cases h

/-! ### What the log says -/

/-- The client is one for the destination, on the host `me`. -/
def Client.Serves (me dest : String) : Client → Prop
  | localClient => dest = me
  | remoteClient hostPort _ => hostPort = dest ∧ dest ≠ me

/-- The cache after an event. -/
def CacheEvent.apply (cache : String → Option Client) : CacheEvent → String → Option Client
  | cached dest client => Function.update cache dest (some client)
  | removed hostport => Function.update cache hostport none

/-- The host that a client was made for. -/
def CacheEvent.host : CacheEvent → Option String
  | cached _ (.remoteClient hostPort _) => some hostPort
  | _ => none

/-- The cache that a log leads to. -/
def replay (log : List CacheEvent) : String → Option Client :=
  log.foldl CacheEvent.apply fun _ => none

/-- A client is cached only where there is none. -/
def Proper (log : List CacheEvent) : Prop :=
  ∀ before dest client after, log = before ++ .cached dest client :: after →
    replay before dest = none

variable {log : List CacheEvent} {e : CacheEvent} {dest me : String} {client : Client}

theorem replay_concat (log : List CacheEvent) (e : CacheEvent) :
    replay (log ++ [e]) = e.apply (replay log) := by
  rw [replay, List.foldl_append]
  rfl

/-- What is in the cache was put there. -/
theorem mem_of_replay (h : replay log dest = some client) : .cached dest client ∈ log := by
  induction log using List.reverseRecOn with
  | nil => cases h
  | append_singleton log e ih =>
    rw [replay_concat] at h
    rw [List.mem_append]
    cases e with
    | cached x c =>
      by_cases hx : dest = x
      · subst hx
        rw [CacheEvent.apply, Function.update_self] at h
        obtain rfl := Option.some.inj h
        exact .inr (.head _)
      · rw [CacheEvent.apply, Function.update_of_ne hx] at h
        exact .inl (ih h)
    | removed x =>
      by_cases hx : dest = x
      · subst hx
        rw [CacheEvent.apply, Function.update_self] at h
        cases h
      · rw [CacheEvent.apply, Function.update_of_ne hx] at h
        exact .inl (ih h)

/-- What was put into the cache is there until it is removed. -/
theorem removed_of_replay_none {before after : List CacheEvent}
    (h : replay (before ++ .cached dest client :: after) dest = none) : .removed dest ∈ after := by
  induction after using List.reverseRecOn with
  | nil =>
    rw [replay_concat, CacheEvent.apply, Function.update_self] at h
    cases h
  | append_singleton after e ih =>
    rw [← List.cons_append, ← List.append_assoc, replay_concat] at h
    rw [List.mem_append]
    cases e with
    | cached x c =>
      by_cases hx : dest = x
      · subst hx
        rw [CacheEvent.apply, Function.update_self] at h
        cases h
      · rw [CacheEvent.apply, Function.update_of_ne hx] at h
        exact .inl (ih h)
    | removed x =>
      by_cases hx : dest = x
      · subst hx
        exact .inr (.head _)
      · rw [CacheEvent.apply, Function.update_of_ne hx] at h
        exact .inl (ih h)

theorem Proper.concat (h : Proper log)
    (he : ∀ dest client, e = .cached dest client → replay log dest = none) :
    Proper (log ++ [e]) := by
  intro before dest client after hlog
  rcases List.eq_nil_or_concat after with rfl | ⟨after, e', rfl⟩
  · obtain ⟨rfl, hlast⟩ := List.append_inj' hlog rfl
    exact he dest client (List.singleton_inj.1 hlast)
  · rw [List.concat_eq_append, ← List.cons_append, ← List.append_assoc] at hlog
    exact h before dest client after (List.append_inj' hlog rfl).1

/-- **Between two clients for a destination** the first one was removed. -/
theorem Proper.removed_between (h : Proper log) {before between after : List CacheEvent}
    {client' : Client} (hlog : log =
      before ++ .cached dest client :: (between ++ .cached dest client' :: after)) :
    .removed dest ∈ between := by
  rw [← List.cons_append, ← List.append_assoc] at hlog
  exact removed_of_replay_none (h _ dest client' after hlog)

/-! ### The proof outline -/

/-- The cache is what its log says, and its clients are for their destinations. -/
structure Consistent (me : String) (r : Cache) : Prop where
  replay : r.clientCache = replay r.log
  proper : Proper r.log
  serves : ∀ dest client, .cached dest client ∈ r.log → client.Serves me dest

/-- All clients that were made for hosts were put into the cache. -/
def Counted (r : Cache) : Prop := r.made = r.log.filterMap CacheEvent.host

variable {r : Cache}

theorem Consistent.of_cache (h : Consistent me r) (hclient : r.clientCache dest = some client) :
    client.Serves me dest := by
  rw [h.replay] at hclient
  exact h.serves dest client (mem_of_replay hclient)

theorem Consistent.store (h : Consistent me r) (hnone : r.clientCache dest = none)
    (hserves : client.Serves me dest) : Consistent me { r with
      clientCache := Function.update r.clientCache dest (some client)
      log := r.log ++ [.cached dest client] } where
  replay := by
    rw [replay_concat, ← h.replay]
    rfl
  proper := by
    refine h.proper.concat fun x c hx => ?_
    obtain ⟨rfl, rfl⟩ := CacheEvent.cached.inj hx
    rw [← h.replay, hnone]
  serves x c hx := by
    rcases List.mem_append.1 hx with hx | hx
    · exact h.serves x c hx
    · obtain ⟨rfl, rfl⟩ := CacheEvent.cached.inj (List.mem_singleton.1 hx)
      exact hserves

theorem Consistent.delete (h : Consistent me r) (hostport : String) : Consistent me { r with
      clientCache := Function.update r.clientCache hostport none
      log := r.log ++ [.removed hostport] } where
  replay := by
    rw [replay_concat, ← h.replay]
    rfl
  proper := h.proper.concat fun x c hx => by cases hx
  serves x c hx := by
    rcases List.mem_append.1 hx with hx | hx
    · exact h.serves x c hx
    · cases List.mem_singleton.1 hx

/-- `WhoAmI` returns `me`, or an error. -/
def IsMe (me : String) (res : Except String String) : Prop := ∀ identity ∈ res.toOption,
  identity = me

/-- `WhoAmI` of the call returns `me`, or an error. -/
def Identified (me : String) : RouterCall → Prop
  | .getClient _ res => IsMe me res
  | .handleEvent _ => True

/-- `WhoAmI` of a call that begins returns `me`, or an error. -/
def Admitted (me : String) : Event RouterCall → Prop
  | .call c => Identified me c
  | .run _ => True

instance (me : String) : DecidablePred (Admitted me)
  | .call (.getClient _ res) => inferInstanceAs (Decidable (∀ identity ∈ res.toOption,
      identity = me))
  | .call (.handleEvent _) => inferInstanceAs (Decidable True)
  | .run _ => inferInstanceAs (Decidable True)

/-- What a goroutine knows where it is. -/
def Knows (me : String) (r : Cache) : Place → Prop
  | .getClient _ res => IsMe me res
  | .rLock _ res => IsMe me res
  | .read _ res => IsMe me res ∧ Consistent me r
  | .rUnlock dest res client => IsMe me res ∧ ∀ c, client = some c → c.Serves me dest
  | .test dest res client => IsMe me res ∧ ∀ c, client = some c → c.Serves me dest
  | .lock _ res => IsMe me res
  | .check _ res => IsMe me res ∧ Consistent me r ∧ Counted r
  | .whoAmI dest res => IsMe me res ∧ Consistent me r ∧ Counted r ∧ r.clientCache dest = none
  | .make dest identity => identity = me ∧ Consistent me r ∧ Counted r ∧
      r.clientCache dest = none
  | .store dest client => client.Serves me dest ∧ Consistent me r ∧
      r.made = (r.log ++ [CacheEvent.cached dest client]).filterMap CacheEvent.host ∧
      r.clientCache dest = none
  | .unlock dest res => (∀ c, res = .ok c → c.Serves me dest) ∧ Consistent me r ∧ Counted r
  | .returned dest res => ∀ x c, dest = .ok x → res = .ok c → c.Serves me x
  | .delete _ _ => Consistent me r ∧ Counted r
  | .removed _ => Consistent me r ∧ Counted r
  | _ => True

/-- **What a goroutine does** with the cache keeps what it knows. -/
theorem knows_act {place : Place} {f : Cache → Cache × Place}
    (hinstr : router.instr place = .act f) (h : Knows me r place) :
    Knows me (f r).1 (f r).2 := by
  cases place with
  | getClient dest res =>
    obtain rfl := RWInstr.act.inj hinstr
    cases dest with
    | error err => exact fun x c hx => by cases hx
    | ok dest => exact h
  | read dest res =>
    obtain rfl := RWInstr.act.inj hinstr
    exact ⟨h.1, fun c hc => h.2.of_cache hc⟩
  | test dest res client =>
    obtain rfl := RWInstr.act.inj hinstr
    cases client with
    | none => exact h.1
    | some client =>
      intro x c hx hc
      obtain rfl := Except.ok.inj hx
      obtain rfl := Except.ok.inj hc
      exact h.2 client rfl
  | check dest res =>
    obtain rfl := RWInstr.act.inj hinstr
    cases hcache : r.clientCache dest with
    | none =>
      simp only [hcache]
      exact ⟨h.1, h.2.1, h.2.2, hcache⟩
    | some client =>
      simp only [hcache]
      refine ⟨fun c hc => ?_, h.2⟩
      obtain rfl := Except.ok.inj hc
      exact h.2.1.of_cache hcache
  | whoAmI dest res =>
    obtain rfl := RWInstr.act.inj hinstr
    obtain ⟨hme, hconsistent, hcounted, hnone⟩ := h
    cases res with
    | error err => exact ⟨fun c hc => (by cases hc), hconsistent, hcounted⟩
    | ok identity => exact ⟨hme identity rfl, hconsistent, hcounted, hnone⟩
  | make dest identity =>
    obtain rfl := RWInstr.act.inj hinstr
    obtain ⟨rfl, hconsistent, hcounted, hnone⟩ := h
    dsimp only
    split_ifs with hdest
    · refine ⟨hdest, hconsistent, ?_, hnone⟩
      rw [List.filterMap_append, hcounted]
      exact (List.append_nil _).symm
    · refine ⟨⟨rfl, hdest⟩, ⟨hconsistent.replay, hconsistent.proper, hconsistent.serves⟩, ?_, hnone⟩
      rw [List.filterMap_append, hcounted]
      rfl
  | store dest client =>
    obtain rfl := RWInstr.act.inj hinstr
    obtain ⟨hserves, hconsistent, hcounted, hnone⟩ := h
    refine ⟨fun c hc => ?_, hconsistent.store hnone hserves, hcounted⟩
    obtain rfl := Except.ok.inj hc
    exact hserves
  | handleEvent changes =>
    obtain rfl := RWInstr.act.inj hinstr
    cases changes with
    | nil => trivial
    | cons change changes =>
      dsimp only
      split_ifs <;> trivial
  | delete hostport changes =>
    obtain rfl := RWInstr.act.inj hinstr
    refine ⟨h.1.delete hostport, ?_⟩
    rw [Counted, List.filterMap_append, h.2]
    exact (List.append_nil _).symm
  | _ => cases hinstr

theorem proved (me : String) : router.Proved mode (Identified me)
    (fun r => Consistent me r ∧ Counted r) (fun _ place r => Knows me r place) where
  enter i c r hc := by
    cases c with
    | getClient dest res => exact hc
    | handleEvent event => trivial
  rlock i place place' h r hI hA := by
    cases place <;> cases h
    exact ⟨hA, hI.1⟩
  runlock i place place' h r hA := by
    cases place <;> cases h
    exact hA
  lock i place place' h r hI hA := by
    cases place <;> cases h
    · exact ⟨hA, hI⟩
    · exact hI
  unlock i place place' h r hA := by
    cases place <;> cases h
    · exact ⟨hA.2, fun x c hx hc => by obtain rfl := Except.ok.inj hx; exact hA.1 c hc⟩
    · exact ⟨hA, trivial⟩
  act i place f h r hA := knows_act h hA
  stable i place f h hmode r hA j other hfree hother := by
    cases other <;> first | exact hother | cases hfree

/-- A state of the goroutines. -/
abbrev RouterState := State (RWLocked Cache) Place

/-- The states that calls come to, in any order of their steps. -/
def Reachable (me : String) (s₀ s : RouterState) : Prop :=
  router.code.Reaches (fun _ => Admitted me) s₀ s

variable {s₀ s s' : RouterState} {i : ℕ} {place place' : Place}

/-- **In every state** the lock is held as the places say, and the goroutines know what the
outline says. -/
theorem Reachable.outlined (h : Reachable me (RWProgram.start .new) s) :
    RWProgram.Holds mode s ∧ RWProgram.Outlined (fun r => Consistent me r ∧ Counted r)
      (fun _ place r => Knows me r place) s := by
  have hstart : RWProgram.Holds mode (RWProgram.start Cache.new) := RWProgram.holds_start _
  refine ⟨annotated.holds hstart h, (proved me).reaches annotated (fun s c hc => hc) hstart
    (RWProgram.outlined_start ⟨⟨rfl, ?_, ?_⟩, rfl⟩) h⟩
  · intro before dest client after hlog
    exact absurd hlog.symm (by simp [Cache.new])
  · intro dest client hmem
    cases hmem

/-- The cache is consistent, also while a goroutine writes. -/
theorem Reachable.consistent (h : Reachable me (RWProgram.start .new) s) :
    Consistent me s.data.data := by
  obtain ⟨hholds, houtlined⟩ := h.outlined
  cases hwriter : s.data.writer with
  | none => exact (houtlined.inv hwriter).1
  | some i =>
    obtain ⟨place, hplace, hmode⟩ := (hholds.writer i).1 hwriter
    have hknows := houtlined.at_place i place hplace
    cases place with
    | check dest res => exact hknows.2.1
    | whoAmI dest res => exact hknows.2.1
    | make dest identity => exact hknows.2.1
    | store dest client => exact hknows.2.1
    | unlock dest res => exact hknows.2.1
    | delete hostport changes => exact hknows.1
    | removed changes => exact hknows.1
    | _ => cases hmode

/-- **A router has one client for a destination.**  Whatever calls are made and however their
steps are interleaved: a client in the cache, and one that `GetClient` returns, is the local
one if the destination is the own address, and otherwise one for the destination; a second
client for a destination is made only after the first was removed; outside of the lock every
client that was made is one that was put into the cache; and as long as a call has not
ended, some goroutine can go on. -/
theorem router_one_client (me : String) (s : RouterState)
    (h : Reachable me (RWProgram.start .new) s) :
    (∀ dest client, s.data.data.clientCache dest = some client → client.Serves me dest) ∧
    (∀ (i : ℕ) dest client, s.threads[i]? = some (.returned (.ok dest) (.ok client)) →
      client.Serves me dest) ∧
    (∀ before dest client between client' after, s.data.data.log =
      before ++ .cached dest client :: (between ++ .cached dest client' :: after) →
      .removed dest ∈ between) ∧
    (s.data.writer = none → s.data.data.made = s.data.data.log.filterMap CacheEvent.host) ∧
    ∀ (i : ℕ) place, s.threads[i]? = some place → ¬ place.Ended →
      ∃ j s', router.code.step s (.run j) = some s' := by
  obtain ⟨hholds, houtlined⟩ := h.outlined
  refine ⟨fun dest client => h.consistent.of_cache, fun i dest client hi => ?_,
    fun before dest client between client' after => h.consistent.proper.removed_between,
    fun hnone => (houtlined.inv hnone).2, fun i place hplace hended => ?_⟩
  · exact houtlined.at_place i _ hi dest client rfl rfl
  · refine annotated.exists_step hholds hplace fun hhalt => hended ?_
    cases place <;> cases hhalt <;> trivial

/-- Both of two calls find no client, and one of them makes it; then it is removed, and the next
call makes another one. -/
def twoClients : List (Event RouterCall) :=
  [.call (.getClient (.ok "b") (.ok "a")), .call (.getClient (.ok "b") (.ok "a"))] ++
    [0, 1, 0, 1, 0, 1, 0, 1, 0, 1].map .run ++ [0, 0, 0, 0, 0, 0, 1, 1, 1].map .run ++
    [.call (.handleEvent (.changesReceived [⟨"c", 1, "b", 1, faulty⟩]))] ++
    [2, 2, 2, 2, 2].map .run ++
    [.call (.getClient (.ok "b") (.ok "a"))] ++ List.replicate 11 (.run 3)

/-- The log of these calls. -/
theorem router_one_client_twice : ∃ s : RouterState, s.data.data.log =
      [.cached "b" (.remoteClient "b" 0), .removed "b", .cached "b" (.remoteClient "b" 1)] ∧
    (∀ dest client, s.data.data.clientCache dest = some client → client.Serves "a" dest) ∧
    ∀ (i : ℕ) dest client, s.threads[i]? = some (.returned (.ok dest) (.ok client)) →
      client.Serves "a" dest := by
  have heval : (router.code.run (fun _ => Admitted "a") (RWProgram.start .new) twoClients).map
      (fun s => s.data.data.log) = some [.cached "b" (.remoteClient "b" 0), .removed "b",
        .cached "b" (.remoteClient "b" 1)] := by
    decide +kernel
  obtain ⟨s, hrun, hlog⟩ := Option.map_eq_some_iff.1 heval
  obtain ⟨hcache, hreturned, -⟩ := router_one_client "a" s (Code.reaches_of_run .refl hrun)
  exact ⟨s, hlog, hcache, hreturned⟩

/-! ### What a call sees -/

/-- At some time from `s₀` to `s` the cache is as `X` says. -/
def Meanwhile (me : String) (X : Cache → Prop) (s₀ s : RouterState) : Prop :=
  ∃ s₁, Reachable me s₀ s₁ ∧ Reachable me s₁ s ∧ X s₁.data.data

theorem Meanwhile.now {X : Cache → Prop} (h : Reachable me s₀ s) (hX : X s.data.data) :
    Meanwhile me X s₀ s :=
  ⟨s, h, .refl, hX⟩

theorem Meanwhile.later {X : Cache → Prop} (h : Meanwhile me X s₀ s) (h' : Reachable me s s') :
    Meanwhile me X s₀ s' := by
  obtain ⟨s₁, hs₁, hs, hX⟩ := h
  exact ⟨s₁, hs₁, hs.trans h', hX⟩

/-- What one step of a goroutine keeps: the destination stays; the client, if there is one, is
that of before or is in the cache; and a server that is not left any more is not in the
cache. -/
structure Sees (r : Cache) (place place' : Place) : Prop where
  dest : ∀ dest, place.dest = some dest → place'.dest = some dest
  client : ∀ dest client, place.dest = some dest → place'.client = some client →
    place.client = some client ∨ r.clientCache dest = some client
  left : ∀ x ∈ place.left, x ∈ place'.left ∨ r.clientCache x = none

/-- A step that brings no client. -/
theorem sees_of_client_none (hdest : ∀ dest, place.dest = some dest → place'.dest = some dest)
    (hclient : place'.client = none) (hleft : place.left ⊆ place'.left) :
    Sees r place place' := by
  refine ⟨hdest, fun dest c hd hc => ?_, fun x hx => .inl (hleft hx)⟩
  rw [hclient] at hc
  cases hc

/-- A step with a client in the cache. -/
theorem sees_of_cache (hdest : place.dest = some dest)
    (hdest' : place'.dest = some dest) (hclient : place'.client = r.clientCache dest)
    (hleft : place.left = []) : Sees r place place' := by
  refine ⟨fun x hx => ?_, fun x c hx hc => .inr ?_, fun x hx => ?_⟩
  · rw [hdest', ← hdest, hx]
  · rw [hdest] at hx
    obtain rfl := Option.some.inj hx
    rw [← hclient, hc]
  · rw [hleft] at hx
    cases hx

theorem sees_act {f : Cache → Cache × Place} (hinstr : router.instr place = .act f) :
    Sees (f r).1 place (f r).2 := by
  cases place with
  | getClient dest res =>
    obtain rfl := RWInstr.act.inj hinstr
    cases dest with
    | error err => exact sees_of_client_none (fun _ hx => by cases hx) rfl (List.nil_subset _)
    | ok dest => exact sees_of_client_none (fun _ => id) rfl (List.nil_subset _)
  | read dest res =>
    obtain rfl := RWInstr.act.inj hinstr
    exact sees_of_cache rfl rfl rfl rfl
  | test dest res client =>
    obtain rfl := RWInstr.act.inj hinstr
    cases client with
    | none => exact sees_of_client_none (fun _ => id) rfl (List.nil_subset _)
    | some client => exact ⟨fun _ => id, fun _ _ _ => .inl, fun _ => .inl⟩
  | check dest res =>
    obtain rfl := RWInstr.act.inj hinstr
    cases hcache : r.clientCache dest with
    | none =>
      simp only [hcache]
      exact sees_of_client_none (fun _ => id) rfl (List.nil_subset _)
    | some client =>
      simp only [hcache]
      exact sees_of_cache rfl rfl hcache.symm rfl
  | whoAmI dest res =>
    obtain rfl := RWInstr.act.inj hinstr
    cases res <;> exact sees_of_client_none (fun _ => id) rfl (List.nil_subset _)
  | make dest identity =>
    obtain rfl := RWInstr.act.inj hinstr
    dsimp only
    split_ifs <;> exact sees_of_client_none (fun _ => id) rfl (List.nil_subset _)
  | store dest client =>
    obtain rfl := RWInstr.act.inj hinstr
    refine sees_of_cache rfl rfl ?_ rfl
    exact (Function.update_self dest (some client) r.clientCache).symm
  | handleEvent changes =>
    obtain rfl := RWInstr.act.inj hinstr
    cases changes with
    | nil => exact sees_of_client_none (fun _ => id) rfl (List.nil_subset _)
    | cons change changes =>
      dsimp only
      split_ifs with hdown
      · refine sees_of_client_none (fun _ hx => by cases hx) rfl ?_
        simp [Place.left, hdown]
      · refine sees_of_client_none (fun _ hx => by cases hx) rfl ?_
        simp [Place.left, hdown]
  | delete hostport changes =>
    obtain rfl := RWInstr.act.inj hinstr
    refine ⟨fun _ hx => (by cases hx), fun _ _ hx => (by cases hx), fun x hx => ?_⟩
    rcases List.mem_cons.1 hx with rfl | hx
    · exact .inr (Function.update_self ..)
    · exact .inl hx
  | _ => cases hinstr

/-- **One step of a goroutine.** -/
theorem sees_next {d d' : RWLocked Cache} {started : List Place}
    (h : router.code.next i place d = some (d', place', started)) :
    Sees d'.data place place' := by
  obtain ⟨-, ⟨hinstr, -, rfl⟩ | ⟨hinstr, rfl⟩ | ⟨hinstr, -, -, rfl⟩ | ⟨hinstr, rfl⟩ |
    ⟨f, hinstr, rfl, rfl⟩⟩ := RWProgram.next_cases h
  · cases place <;> cases hinstr
    exact sees_of_client_none (fun _ => id) rfl (List.nil_subset _)
  · cases place <;> cases hinstr
    exact ⟨fun _ => id, fun _ _ _ => .inl, fun _ => .inl⟩
  · cases place <;> cases hinstr
    · exact sees_of_client_none (fun _ => id) rfl (List.nil_subset _)
    · exact sees_of_client_none (fun _ => id) rfl (List.Subset.refl _)
  · cases place with
    | unlock dest client =>
      cases hinstr
      cases client <;> exact ⟨fun _ => id, fun _ _ _ => .inl, fun _ => .inl⟩
    | removed changes =>
      cases hinstr
      exact sees_of_client_none (fun _ => id) rfl (List.Subset.refl _)
    | _ => cases hinstr
  · exact sees_act hinstr

/-- What a call has seen so far, from `s₀` on: it is about the same destination, its client was
in the cache, and the servers that it has removed were not. -/
structure Seen (me : String) (first : Place) (s₀ s : RouterState) (place : Place) : Prop where
  dest : ∀ x, first.dest = some x → place.dest = some x
  client : ∀ x client, first.dest = some x → place.client = some client →
    Meanwhile me (fun r => r.clientCache x = some client) s₀ s
  left : ∀ x ∈ first.left, x ∈ place.left ∨ Meanwhile me (fun r => r.clientCache x = none) s₀ s

theorem Seen.later {first : Place} (h : Seen me first s₀ s place) (h' : Reachable me s s') :
    Seen me first s₀ s' place where
  dest := h.dest
  client y c hy hc := (h.client y c hy hc).later h'
  left y hy := (h.left y hy).imp_right fun hy => hy.later h'

/-- **A goroutine that goes on.** -/
theorem Seen.next {first : Place} (h : Seen me first s₀ s place) (hs : Reachable me s₀ s')
    (h' : Reachable me s s') (hsees : Sees s'.data.data place place') :
    Seen me first s₀ s' place' where
  dest y hy := hsees.dest y (h.dest y hy)
  client y c hy hc := by
    rcases hsees.client y c (h.dest y hy) hc with hc | hcache
    · exact (h.client y c hy hc).later h'
    · exact .now hs hcache
  left y hy := by
    rcases h.left y hy with hy | hy
    · exact (hsees.left y hy).imp_right fun hnone => .now hs hnone
    · exact .inr (hy.later h')

/-- **From its beginning on**, a call has seen what it knows. -/
theorem seen_of_reachable {c : RouterCall} (hi : s₀.threads[i]? = some (router.enter c))
    (h : Reachable me s₀ s) :
    ∃ place, s.threads[i]? = some place ∧ Seen me (router.enter c) s₀ s place := by
  -- along the run: the goroutine goes on, or another one does and it stays where it is
  induction h with
  | refl =>
    refine ⟨_, hi, fun _ hx => hx, fun x client hx hclient => ?_, fun x hx => .inl hx⟩
    cases c <;> cases hclient
  | @step s s' e h hP hstep ih =>
    obtain ⟨place, hplace, hseen⟩ := ih
    have hlast : Reachable me s s' := .step .refl hP hstep
    cases e with
    | call c' =>
      obtain rfl := Code.step_call.1 hstep
      have hlt := (List.getElem?_eq_some_iff.1 hplace).1
      exact ⟨place, by rw [List.getElem?_append_left hlt, hplace], hseen.later hlast⟩
    | run j =>
      obtain ⟨q, d', q', started, hq, hnext, rfl⟩ := Code.step_run.1 hstep
      by_cases hij : j = i
      · subst hij
        obtain rfl : q = place := Option.some.inj (hq.symm.trans hplace)
        exact ⟨q', Code.getElem?_self hplace,
          hseen.next (.step h hP hstep) hlast (sees_next hnext)⟩
      · exact ⟨place, Code.getElem?_of_ne hij hplace, hseen.later hlast⟩

/-- **What calls see of the cache.**  From when a call begins on, however the steps of all calls
are interleaved: the client that `GetClient` returns was in the cache for its destination at
some time during the call, and when `HandleEvent` has ended, each member that the event
reports as faulty or gone was without a client at some time during the call. -/
theorem calls_see_cache (me : String) (c : RouterCall) (s₀ s₁ s : RouterState)
    (hcall : router.code.step s₀ (.call c) = some s₁) (h : Reachable me s₁ s) :
    (∀ dest identity client, c = .getClient (.ok dest) identity →
      s.threads[s₀.threads.length]? = some (.returned (.ok dest) (.ok client)) →
      Meanwhile me (fun r => r.clientCache dest = some client) s₁ s) ∧
    ∀ event, c = .handleEvent event → s.threads[s₀.threads.length]? = some .handled →
      ∀ change ∈ changesOf event, Facade.isDown change.status = true →
        Meanwhile me (fun r => r.clientCache change.address = none) s₁ s := by
  obtain rfl := Code.step_call.1 hcall
  obtain ⟨place, hplace, hseen⟩ := seen_of_reachable (c := c) (i := s₀.threads.length)
    (by simp [RWProgram.code]) h
  constructor
  · rintro dest identity client rfl hreturned
    obtain rfl := Option.some.inj (hplace.symm.trans hreturned)
    exact hseen.client dest client rfl rfl
  · rintro event rfl hhandled change hchange hdown
    obtain rfl := Option.some.inj (hplace.symm.trans hhandled)
    refine (hseen.left change.address ?_).resolve_left List.not_mem_nil
    exact List.mem_map.2 ⟨change, List.mem_filter.2 ⟨hchange, hdown⟩, rfl⟩

/-- A call that finds no client and makes one, and after it an event that reports the host as
faulty: the client is in the cache when the event comes in, and is taken out. -/
theorem calls_see_cache_removed : ∃ s₁ s₀ s₂ s : RouterState,
    router.code.step (RWProgram.start .new) (.call (.getClient (.ok "b") (.ok "a"))) = some s₁ ∧
    router.code.step s₀ (.call (.handleEvent (.changesReceived [⟨"c", 1, "b", 1, faulty⟩]))) =
      some s₂ ∧
    s.threads = [.returned (.ok "b") (.ok (.remoteClient "b" 0)), .handled] ∧
    Meanwhile "a" (fun r => r.clientCache "b" = some (.remoteClient "b" 0)) s₁ s ∧
    s₂.data.data.clientCache "b" = some (.remoteClient "b" 0) ∧
    Meanwhile "a" (fun r => r.clientCache "b" = none) s₂ s := by
  have heval : ((router.code.run (fun _ => Admitted "a")
      (⟨⟨.new, none, ∅⟩, [.getClient (.ok "b") (.ok "a")]⟩ : RouterState)
      (List.replicate 11 (.run 0))).bind fun s₀ => (router.code.run (fun _ => Admitted "a")
        (⟨s₀.data, s₀.threads ++ [.handleEvent [⟨"c", 1, "b", 1, faulty⟩]]⟩ : RouterState)
        (List.replicate 5 (.run 1))).map fun s => decide (s₀.threads.length = 1 ∧
          s.threads = [.returned (.ok "b") (.ok (.remoteClient "b" 0)), .handled] ∧
          s₀.data.data.clientCache "b" = some (.remoteClient "b" 0))) = some true := by
    decide +kernel
  obtain ⟨s₀, hrun, heval⟩ := Option.bind_eq_some_iff.1 heval
  obtain ⟨s, hrun', heval⟩ := Option.map_eq_some_iff.1 heval
  obtain ⟨hlength, hthreads, hcache⟩ := of_decide_eq_true heval
  have hcall : router.code.step s₀ (.call (.handleEvent (.changesReceived
      [⟨"c", 1, "b", 1, faulty⟩]))) =
        some ⟨s₀.data, s₀.threads ++ [.handleEvent [⟨"c", 1, "b", 1, faulty⟩]]⟩ := rfl
  have hadmitted (event : MemberlistEvent) : Admitted "a" (.call (.handleEvent event)) := trivial
  have hreach : Reachable "a" ⟨⟨.new, none, ∅⟩, [.getClient (.ok "b") (.ok "a")]⟩ s :=
    Code.reaches_of_run ((Code.reaches_of_run .refl hrun).step (hadmitted _) hcall) hrun'
  refine ⟨_, s₀, _, s, rfl, hcall, hthreads, ?_, hcache, ?_⟩
  · exact (calls_see_cache "a" (.getClient (.ok "b") (.ok "a")) (RWProgram.start .new) _ s rfl
      hreach).1 "b" (.ok "a") _ rfl (by rw [hthreads]; rfl)
  · exact (calls_see_cache "a" _ s₀ _ s hcall (Code.reaches_of_run .refl hrun')).2 _ rfl
      (by rw [hthreads, hlength]; rfl) _ List.mem_cons_self rfl

end Router
end Ringpop
