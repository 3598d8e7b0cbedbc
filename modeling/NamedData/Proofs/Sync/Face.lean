import Mathlib.Data.List.Basic
import Mathlib.Logic.Function.Basic
import NamedData.Proofs.Packet.Wire
import NamedData.Sync.Face
/-!
# The queue of a face over its calls

Packets are put in a face, names are refused and requests are sent, in any order. The calls have
numbers in their order, and a packet is told by the number of the call that put it, so two calls
that put equal packets put two of them. Which call takes which packet is then a partial function on
numbers, and it settles what the queue is when a call comes: the packets that were put before and
not yet taken, in the order of their numbers. A request that is not refused takes the one with the
least number of those that answer it.

A call adds at most one entry to that function, for a packet that no call had taken. The packets
that waited before are then the same, and so the function is built up call by call.

    face.Expresses interest (face.express interest)                           (expresses_express)
    (before calls now).queued = (range now).filterMap (waiting? calls taker now)    (Books.queued)
    Books calls taker now → ∃ later, Books calls later (now + 1)                      (Books.succ)
-/

namespace NamedData.Sync.Face

/-! ## One request -/

/-- The face with one more request on record. -/
def record (face : Face) (interest : Interest) : Face :=
  { face with expressed := face.expressed ++ [interest] }

/-- What a request is answered, and the face after it. -/
inductive Expresses (face : Face) (interest : Interest) : Answer × Face → Prop where
  | refused : (∃ name ∈ face.refused, name.isPrefixOf interest.name) →
    Expresses face interest (.refused, face.record interest)
  | delivered {early late : List Data} {data : Data} :
    (¬∃ name ∈ face.refused, name.isPrefixOf interest.name) →
    face.queued = early ++ data :: late → interest.name.isPrefixOf data.name →
    (∀ other ∈ early, ¬interest.name.isPrefixOf other.name) →
    Expresses face interest
      (.delivered data, { face.record interest with queued := early ++ late })
  | silence : (¬∃ name ∈ face.refused, name.isPrefixOf interest.name) →
    (∀ data ∈ face.queued, ¬interest.name.isPrefixOf data.name) →
    Expresses face interest (.silence, face.record interest)

/-- The packet taken is the first that answers, and the others stay as they were. -/
theorem take?_eq_some {name : Name} {queue rest : List Data} {data : Data}
    (h : take? name queue = some (data, rest)) :
    ∃ early late, queue = early ++ data :: late ∧ rest = early ++ late ∧
      name.isPrefixOf data.name ∧ ∀ other ∈ early, ¬name.isPrefixOf other.name := by
  induction queue generalizing rest with
  | nil => cases h
  | cons first queue ih =>
    rw [take?] at h
    split at h
    · next hunder =>
      cases h
      exact ⟨[], queue, rfl, rfl, hunder, nofun⟩
    · next hnot =>
      obtain ⟨⟨found, others⟩, hfound, hsame⟩ := Option.map_eq_some_iff.1 h
      cases hsame
      obtain ⟨early, late, rfl, rfl, hunder, hearly⟩ := ih hfound
      exact ⟨first :: early, late, rfl, rfl, hunder, List.forall_mem_cons.2 ⟨hnot, hearly⟩⟩

theorem take?_eq_none {name : Name} {queue : List Data} (h : take? name queue = none) :
    ∀ data ∈ queue, ¬name.isPrefixOf data.name := by
  induction queue with
  | nil => nofun
  | cons first queue ih =>
    rw [take?] at h
    split at h
    · cases h
    · next hnot => exact List.forall_mem_cons.2 ⟨hnot, ih (Option.map_eq_none_iff.1 h)⟩

theorem expresses_express (face : Face) (interest : Interest) :
    face.Expresses interest (face.express interest) := by
  simp only [express, List.any_eq_true]
  split
  · next hrefused => exact .refused hrefused
  · next hfree =>
    split
    · next data queue htake =>
      obtain ⟨early, late, hqueued, rfl, hunder, hearly⟩ := take?_eq_some htake
      exact .delivered hfree hqueued hunder hearly
    · next htake => exact .silence hfree (take?_eq_none htake)

namespace Expresses

variable {face : Face} {interest : Interest} {result : Answer × Face}

theorem expressed_eq (h : face.Expresses interest result) :
    result.2.expressed = face.expressed ++ [interest] := by
  cases h <;> rfl

theorem refused_eq (h : face.Expresses interest result) : result.2.refused = face.refused := by
  cases h <;> rfl

theorem queued_eq (h : face.Expresses interest result)
    (undelivered : result.1 = .refused ∨ result.1 = .silence) :
    result.2.queued = face.queued := by
  cases h with
  | refused _ => rfl
  | delivered _ _ _ _ => rcases undelivered with hanswer | hanswer <;> cases hanswer
  | silence _ _ => rfl

theorem queued_subset (h : face.Expresses interest result) : result.2.queued ⊆ face.queued := by
  cases h with
  | refused _ => exact List.Subset.refl _
  | delivered _ hqueued _ _ =>
    rw [hqueued]
    exact ((List.Sublist.refl _).append (List.sublist_cons_self _ _)).subset
  | silence _ _ => exact List.Subset.refl _

/-- What is delivered was queued, and its name extends that of the request. -/
theorem of_delivered (h : face.Expresses interest result) {data : Data}
    (answer : result.1 = .delivered data) :
    interest.name.isPrefixOf data.name ∧ data ∈ face.queued := by
  cases h with
  | refused _ => cases answer
  | delivered _ hqueued hunder _ =>
    cases answer
    refine ⟨hunder, ?_⟩
    rw [hqueued]
    exact List.mem_append_right _ List.mem_cons_self
  | silence _ _ => cases answer

theorem eq_refused_iff (h : face.Expresses interest result) :
    result.1 = .refused ↔ ∃ name ∈ face.refused, name.isPrefixOf interest.name := by
  cases h with
  | refused hrefused => exact iff_of_true rfl hrefused
  | delivered hfree => exact iff_of_false nofun hfree
  | silence hfree => exact iff_of_false nofun hfree

theorem eq_silence_iff (h : face.Expresses interest result) :
    result.1 = .silence ↔ result.1 ≠ .refused ∧
      ∀ data ∈ face.queued, ¬interest.name.isPrefixOf data.name := by
  cases h with
  | refused _ => exact iff_of_false nofun fun h => h.1 rfl
  | delivered _ hqueued hunder _ =>
    refine iff_of_false nofun fun h => h.2 _ ?_ hunder
    rw [hqueued]
    exact List.mem_append_right _ List.mem_cons_self
  | silence _ hnone => exact iff_of_true rfl ⟨nofun, hnone⟩

end Expresses

/-! ## Calls -/

/-- What can be done with a face. -/
inductive Call where
  | put (data : Data)
  | refuse (name : Name)
  | express (interest : Interest)

/-- The packet that a call puts in the queue. -/
def Call.packet? : Call → Option Data
  | put data => some data
  | refuse _ | express _ => none

theorem Call.packet?_eq_some_iff {call : Call} {data : Data} :
    call.packet? = some data ↔ call = .put data := by
  cases call <;> simp [packet?]

/-- The request that a call sends. -/
def Call.request? : Call → Option Interest
  | express interest => some interest
  | put _ | refuse _ => none

/-- The face after a call. -/
def act (face : Face) : Call → Face
  | .put data => face.put data
  | .refuse name => face.refuse name
  | .express interest => (face.express interest).2

/-- The face that was empty at the start, when the call with a number comes. -/
def before (calls : List Call) (now : Nat) : Face := (calls.take now).foldl act .empty

variable {calls : List Call} {taker : Nat → Option Nat} {now number : Nat} {call : Call}

theorem before_succ (h : calls[now]? = some call) :
    before calls (now + 1) = (before calls now).act call := by
  rw [before, List.take_add_one, h, List.foldl_append]
  rfl

theorem expressed_foldl_act (face : Face) (calls : List Call) :
    (calls.foldl act face).expressed = face.expressed ++ calls.filterMap Call.request? := by
  induction calls generalizing face with
  | nil => exact (List.append_nil _).symm
  | cons call calls ih =>
    rw [List.foldl_cons, ih]
    cases call with
    | put data => rfl
    | refuse name => rfl
    | express interest =>
      rw [act, (face.expresses_express interest).expressed_eq, List.append_assoc]
      rfl

theorem mem_refused_foldl_act {face : Face} {calls : List Call} {name : Name} :
    name ∈ (calls.foldl act face).refused ↔ name ∈ face.refused ∨ .refuse name ∈ calls := by
  induction calls generalizing face with
  | nil => simp
  | cons call calls ih =>
    rw [List.foldl_cons, ih, List.mem_cons]
    cases call with
    | put data => simp [act, put]
    | refuse other => simp [act, refuse, or_assoc]
    | express interest => simp [act, (face.expresses_express interest).refused_eq]

theorem expressed_before (calls : List Call) (now : Nat) :
    (before calls now).expressed = (calls.take now).filterMap Call.request? :=
  expressed_foldl_act _ _

theorem mem_refused_before {name : Name} :
    name ∈ (before calls now).refused ↔ .refuse name ∈ calls.take now :=
  mem_refused_foldl_act.trans (or_iff_right List.not_mem_nil)

/-! ## Packets that wait -/

/-- The packet of a call, if it waits when another call comes: if it was put before, and the call
that takes it does not come before. -/
def waiting? (calls : List Call) (taker : Nat → Option Nat) (now number : Nat) : Option Data :=
  if (taker number).any (· < now) then none else (calls.take now)[number]?.bind Call.packet?

/-- Whether a packet has the least number of those that wait and answer a name. -/
structure Earliest (waiting : Nat → Option Data) (name : Name) (number : Nat) (data : Data) :
    Prop where
  waits : waiting number = some data
  under : name.isPrefixOf data.name
  least : ∀ earlier < number, ∀ other, waiting earlier = some other →
    ¬name.isPrefixOf other.name

/-- Whether a call is a request that is answered with the packet of a number, the earliest of those
that wait then. -/
def Takes (calls : List Call) (taker : Nat → Option Nat) (now number : Nat) : Prop :=
  ∃ interest data, calls[now]? = some (.express interest) ∧
    ((before calls now).express interest).1 = .delivered data ∧
    Earliest (waiting? calls taker now) interest.name number data

theorem waiting?_eq_some_iff {data : Data} :
    waiting? calls taker now number = some data ↔
      number < now ∧ calls[number]? = some (.put data) ∧ ∀ call ∈ taker number, now ≤ call := by
  simp only [waiting?, Option.ite_none_left_eq_some, Option.bind_eq_some_iff, List.getElem?_take,
    Option.ite_none_right_eq_some, Call.packet?_eq_some_iff, exists_eq_right]
  rw [and_comm, and_assoc]
  cases taker number <;> simp

theorem Earliest.unique {waiting : Nat → Option Data} {name : Name} {data other : Data}
    {number another : Nat} (h : Earliest waiting name number data)
    (also : Earliest waiting name another other) : number = another := by
  rcases Nat.lt_trichotomy number another with hlt | heq | hlt
  · exact absurd h.under (also.least _ hlt _ h.waits)
  · exact heq
  · exact absurd also.under (h.least _ hlt _ also.waits)

/-- A call takes one packet. -/
theorem Takes.unique {other : Nat} (h : Takes calls taker now number)
    (also : Takes calls taker now other) : number = other := by
  obtain ⟨interest, data, hcall, _, hearliest⟩ := h
  obtain ⟨same, another, hsame, _, hother⟩ := also
  cases hcall.symm.trans hsame
  exact hearliest.unique hother

theorem not_takes (hcall : calls[now]? = some call)
    (undelivered : ∀ interest data, call = .express interest →
      ((before calls now).express interest).1 ≠ .delivered data) (number : Nat) :
    ¬Takes calls taker now number := by
  rintro ⟨interest, data, hexpress, hanswer, _⟩
  exact undelivered interest data (Option.some.inj (hcall.symm.trans hexpress)) hanswer

/-- What stands before a number in the numbers below a bound, and what comes after it. -/
theorem range_eq_append_cons {n number : Nat} {below above : List Nat}
    (h : List.range n = below ++ number :: above) :
    below = List.range number ∧ ∀ other ∈ above, number < other := by
  rw [List.range_eq_range', List.range'_eq_append_iff] at h
  obtain ⟨count, -, hbelow, habove⟩ := h
  obtain ⟨hnumber, -, rfl⟩ := List.range'_eq_cons_iff.1 habove.symm
  obtain rfl : count = number := by omega
  refine ⟨by rw [hbelow, List.range_eq_range'], ?_⟩
  intro other hother
  exact (List.mem_range'_1.1 hother).1

theorem filterMap_range_succ {f g : Nat → Option Data} {n : Nat} (h : ∀ k < n, f k = g k) :
    (List.range (n + 1)).filterMap f = (List.range n).filterMap g ++ (f n).toList := by
  rw [List.range_succ, List.filterMap_append,
    List.filterMap_congr fun k hk => h k (List.mem_range.1 hk)]
  cases hf : f n <;> simp [hf]

/-- The first packet of a queue that answers a name is the one with the least number, and the queue
without it is the one in which that number does not wait. -/
theorem exists_earliest {waiting : Nat → Option Data} {name : Name} {early late : List Data}
    {data : Data} (queue : (List.range now).filterMap waiting = early ++ data :: late)
    (under : name.isPrefixOf data.name) (first : ∀ other ∈ early, ¬name.isPrefixOf other.name) :
    ∃ number, Earliest waiting name number data ∧
      (List.range now).filterMap (Function.update waiting number none) = early ++ late := by
  obtain ⟨below, rest, hrange, hearly, hrest⟩ := List.filterMap_eq_append_iff.1 queue
  obtain ⟨idle, number, above, rfl, hidle, hnumber, hlate⟩ := List.filterMap_eq_cons_iff.1 hrest
  rw [← List.append_assoc] at hrange
  obtain ⟨hbelow, habove⟩ := range_eq_append_cons hrange
  have hfirst : (List.range number).filterMap waiting = early := by
    rw [← hbelow, List.filterMap_append, hearly, List.filterMap_eq_nil_iff.2 hidle,
      List.append_nil]
  have hkept : ∀ numbers : List Nat, number ∉ numbers →
      numbers.filterMap (Function.update waiting number none) = numbers.filterMap waiting :=
    fun numbers hnot => List.filterMap_congr fun other hother =>
      Function.update_of_ne (ne_of_mem_of_not_mem hother hnot) _ _
  refine ⟨number, ⟨hnumber, under, ?_⟩, ?_⟩
  · intro earlier hlt other hother
    refine first other ?_
    rw [← hfirst]
    exact List.mem_filterMap.2 ⟨earlier, List.mem_range.2 hlt, hother⟩
  · rw [hrange, hbelow, List.filterMap_append, List.filterMap_cons_none (Function.update_self ..),
      hkept _ fun hmem => Nat.lt_irrefl _ (List.mem_range.1 hmem),
      hkept _ fun hmem => Nat.lt_irrefl _ (habove number hmem), hfirst, hlate]

/-! ## Which call takes which packet -/

/-- A new entry for a packet that no call takes does not matter before the call that it names. -/
theorem waiting?_update (calls : List Call) (untaken : taker number = none) {moment : Nat}
    (h : moment ≤ now) :
    waiting? calls (Function.update taker number (some now)) moment =
      waiting? calls taker moment := by
  funext other
  rcases eq_or_ne other number with rfl | hne
  · have hlater : ¬now < moment := Nat.not_lt.2 h
    simp [waiting?, untaken, hlater]
  · simp only [waiting?, Function.update_of_ne hne]

/-- After that call the packet does not wait, and the others wait as they did. -/
theorem waiting?_update_succ (calls : List Call) (taker : Nat → Option Nat) (now number : Nat) :
    waiting? calls (Function.update taker number (some now)) (now + 1) =
      Function.update (waiting? calls taker (now + 1)) number none := by
  funext other
  rcases eq_or_ne other number with rfl | hne
  · simp [waiting?]
  · simp only [waiting?, Function.update_of_ne hne]

theorem takes_update (untaken : taker number = none) {moment other : Nat} (h : moment ≤ now) :
    Takes calls (Function.update taker number (some now)) moment other ↔
      Takes calls taker moment other := by
  rw [Takes, Takes, waiting?_update calls untaken h]

/-- Whether a partial function tells the queue up to a call, and has the packets that were taken
until then, each with the call that takes it. -/
structure Books (calls : List Call) (taker : Nat → Option Nat) (now : Nat) : Prop where
  queued : ∀ moment ≤ now,
    (before calls moment).queued = (List.range moment).filterMap (waiting? calls taker moment)
  taken : ∀ number moment,
    taker number = some moment ↔ moment < now ∧ Takes calls taker moment number

namespace Books

theorem lt_of_taken (h : Books calls taker now) {moment : Nat}
    (taken : taker number = some moment) : number < moment ∧ moment < now := by
  obtain ⟨hbefore, _, _, _, _, hearliest⟩ := (h.taken number moment).1 taken
  exact ⟨(waiting?_eq_some_iff.1 hearliest.waits).1, hbefore⟩

/-- A packet that waits after all the calls in the books is taken by none of them. -/
theorem untaken (h : Books calls taker now) {data : Data}
    (waits : waiting? calls taker now number = some data) : taker number = none := by
  refine Option.eq_none_iff_forall_ne_some.2 ?_
  intro moment htaken
  have hlater := (waiting?_eq_some_iff.1 waits).2.2 moment htaken
  exact absurd (h.lt_of_taken htaken).2 (Nat.not_lt.2 hlater)

theorem waiting?_succ_of_lt (h : Books calls taker now) (hlt : number < now) :
    waiting? calls taker (now + 1) number = waiting? calls taker now number := by
  ext data
  rw [waiting?_eq_some_iff, waiting?_eq_some_iff]
  have htaken : ∀ call ∈ taker number, call < now := fun call hcall => (h.lt_of_taken hcall).2
  constructor
  · rintro ⟨-, hput, hlater⟩
    exact ⟨hlt, hput, fun call hcall => Nat.le_of_succ_le (hlater call hcall)⟩
  · rintro ⟨-, hput, hlater⟩
    exact ⟨Nat.lt_succ_of_lt hlt, hput, fun call hcall =>
      absurd (htaken call hcall) (Nat.not_lt.2 (hlater call hcall))⟩

theorem waiting?_succ_self (h : Books calls taker now) (hcall : calls[now]? = some call) :
    waiting? calls taker (now + 1) now = call.packet? := by
  have huntaken : taker now = none := by
    refine Option.eq_none_iff_forall_ne_some.2 ?_
    intro moment htaken
    exact Nat.lt_asymm (h.lt_of_taken htaken).1 (h.lt_of_taken htaken).2
  rw [waiting?, huntaken, List.getElem?_take_of_lt (Nat.lt_succ_self now), hcall]
  rfl

/-- The books of the next call if this one takes nothing. -/
theorem keep (h : Books calls taker now) (hcall : calls[now]? = some call)
    (idle : ∀ number, ¬Takes calls taker now number)
    (queue : (before calls (now + 1)).queued =
      (before calls now).queued ++ call.packet?.toList) : Books calls taker (now + 1) := by
  refine ⟨?_, ?_⟩
  · intro moment hmoment
    rcases Nat.le_succ_iff.1 hmoment with hle | rfl
    · exact h.queued moment hle
    · rw [queue, h.queued now (Nat.le_refl _), ← h.waiting?_succ_self hcall]
      exact (filterMap_range_succ fun _ => h.waiting?_succ_of_lt).symm
  · intro number moment
    rw [h.taken, Nat.lt_succ_iff_lt_or_eq, or_and_right, or_iff_left]
    rintro ⟨rfl, htakes⟩
    exact idle number htakes

/-- What waits after a call that sends a request and takes a packet. -/
theorem waiting_update_succ (h : Books calls taker now) {interest : Interest}
    (hcall : calls[now]? = some (.express interest)) (hlt : number < now) :
    (List.range (now + 1)).filterMap
        (waiting? calls (Function.update taker number (some now)) (now + 1)) =
      (List.range now).filterMap (Function.update (waiting? calls taker now) number none) := by
  have hnew : Function.update (waiting? calls taker (now + 1)) number none now = none := by
    rw [Function.update_of_ne (Nat.ne_of_gt hlt), h.waiting?_succ_self hcall]
    rfl
  have hold : ∀ other < now, Function.update (waiting? calls taker (now + 1)) number none other =
      Function.update (waiting? calls taker now) number none other := by
    intro other hother
    simp only [Function.update_apply, h.waiting?_succ_of_lt hother]
  rw [waiting?_update_succ, filterMap_range_succ hold, hnew]
  exact List.append_nil _

/-- With the new entry the function has the packets that are taken up to the call and in it. -/
theorem taken_update (h : Books calls taker now) (untaken : taker number = none)
    (takes : Takes calls taker now number) (other moment : Nat) :
    Function.update taker number (some now) other = some moment ↔ moment < now + 1 ∧
      Takes calls (Function.update taker number (some now)) moment other := by
  constructor
  · intro hentry
    rcases eq_or_ne other number with rfl | hne
    · rw [Function.update_self] at hentry
      obtain rfl := Option.some.inj hentry
      exact ⟨Nat.lt_succ_self now, (takes_update untaken (Nat.le_refl now)).2 takes⟩
    · rw [Function.update_of_ne hne] at hentry
      obtain ⟨hbefore, hother⟩ := (h.taken other moment).1 hentry
      exact ⟨Nat.lt_succ_of_lt hbefore, (takes_update untaken (Nat.le_of_lt hbefore)).2 hother⟩
  · rintro ⟨hmoment, hother⟩
    have hle : moment ≤ now := Nat.le_of_lt_succ hmoment
    rw [takes_update untaken hle] at hother
    rcases Nat.lt_or_eq_of_le hle with hbefore | rfl
    · -- an earlier call took another packet, as this one had no entry
      have hentry := (h.taken other moment).2 ⟨hbefore, hother⟩
      have hne : other ≠ number := by
        rintro rfl
        cases untaken.symm.trans hentry
      rwa [Function.update_of_ne hne]
    · rw [hother.unique takes, Function.update_self]

/-- The books of the next call if this one takes a packet: it is entered. -/
theorem take (h : Books calls taker now) {interest : Interest} {data : Data}
    (hcall : calls[now]? = some (.express interest))
    (answer : ((before calls now).express interest).1 = .delivered data)
    (earliest : Earliest (waiting? calls taker now) interest.name number data)
    (queue : (before calls (now + 1)).queued =
      (List.range now).filterMap (Function.update (waiting? calls taker now) number none)) :
    Books calls (Function.update taker number (some now)) (now + 1) := by
  have huntaken : taker number = none := h.untaken earliest.waits
  refine ⟨?_, h.taken_update huntaken ⟨interest, data, hcall, answer, earliest⟩⟩
  intro moment hmoment
  rcases Nat.le_succ_iff.1 hmoment with hle | rfl
  · rw [waiting?_update calls huntaken hle, h.queued moment hle]
  · rw [queue, h.waiting_update_succ hcall (waiting?_eq_some_iff.1 earliest.waits).1]

theorem succ (h : Books calls taker now) (hcall : calls[now]? = some call) :
    ∃ later, Books calls later (now + 1) := by
  have hnext : (before calls (now + 1)).queued = ((before calls now).act call).queued :=
    congrArg Face.queued (before_succ hcall)
  cases call with
  | put data => exact ⟨taker, h.keep hcall (not_takes hcall nofun) hnext⟩
  | refuse name =>
    exact ⟨taker, h.keep hcall (not_takes hcall nofun) (hnext.trans (List.append_nil _).symm)⟩
  | express interest =>
    have hexpresses := (before calls now).expresses_express interest
    rw [act] at hnext
    generalize hresult : (before calls now).express interest = result at hexpresses hnext
    have hanswer : ((before calls now).express interest).1 = result.1 := congrArg Prod.fst hresult
    have hkept : result.2.queued = (before calls now).queued →
        (∀ data, result.1 ≠ .delivered data) → ∃ later, Books calls later (now + 1) := by
      intro hqueue hundelivered
      refine ⟨taker, h.keep hcall (not_takes hcall ?_)
        ((hnext.trans hqueue).trans (List.append_nil _).symm)⟩
      rintro _ data ⟨⟩ hdelivered
      exact hundelivered data (hanswer.symm.trans hdelivered)
    cases hexpresses with
    | refused _ => exact hkept rfl nofun
    | silence _ _ => exact hkept rfl nofun
    | delivered _ hqueued hunder hfirst =>
      obtain ⟨number, hearliest, hothers⟩ :=
        exists_earliest ((h.queued now (Nat.le_refl _)).symm.trans hqueued) hunder hfirst
      exact ⟨_, h.take hcall hanswer hearliest (hnext.trans hothers.symm)⟩

end Books

/-- There are books up to every call, by induction on its number. -/
theorem exists_books (calls : List Call) (bound : now ≤ calls.length) :
    ∃ taker, Books calls taker now := by
  induction now with
  | zero =>
    refine ⟨fun _ => none, ?_, ?_⟩
    · intro moment hmoment
      rw [Nat.le_zero.1 hmoment]
      rfl
    · intro number moment
      exact iff_of_false nofun fun htakes => Nat.not_lt_zero _ htakes.1
  | succ now ih =>
    obtain ⟨taker, hbooks⟩ := ih (Nat.le_of_succ_le bound)
    exact hbooks.succ (List.getElem?_eq_getElem bound)

/-! ## Answers -/

section

variable (queue : (before calls now).queued =
  (List.range now).filterMap (waiting? calls taker now)) {interest : Interest}

include queue

theorem mem_queued_before_iff {data : Data} :
    data ∈ (before calls now).queued ↔ ∃ number, waiting? calls taker now number = some data := by
  rw [queue, List.mem_filterMap]
  refine exists_congr fun number => and_iff_right_of_imp ?_
  intro hwaits
  exact List.mem_range.2 (waiting?_eq_some_iff.1 hwaits).1

theorem Expresses.eq_delivered_iff {result : Answer × Face}
    (h : (before calls now).Expresses interest result) {data : Data} :
    result.1 = .delivered data ↔ result.1 ≠ .refused ∧
      ∃ number, Earliest (waiting? calls taker now) interest.name number data := by
  cases h with
  | refused _ => exact iff_of_false nofun fun h => h.1 rfl
  | delivered _ hqueued hunder hfirst =>
    obtain ⟨number, hearliest, _⟩ := exists_earliest (queue.symm.trans hqueued) hunder hfirst
    constructor
    · rintro ⟨rfl⟩
      exact ⟨nofun, number, hearliest⟩
    · rintro ⟨_, other, hother⟩
      obtain rfl := hearliest.unique hother
      cases hearliest.waits.symm.trans hother.waits
      rfl
  | silence _ hnone =>
    refine iff_of_false nofun ?_
    rintro ⟨_, number, hearliest⟩
    exact hnone data ((mem_queued_before_iff queue).2 ⟨number, hearliest.waits⟩) hearliest.under

end

/-! ## Whole runs -/

/-- Whatever is done with a face that was empty at the start: a partial function tells of each
packet that was put, by the number of its call, which call takes it, if one does. When a call comes,
the queue holds what was put and not yet taken, each packet once and in the order in which they were
put, and the requests are on record in their order. A request is refused just if it is under a name
that was refused before, whatever is in the queue. Else it takes the earliest packet that waits and
whose name extends its own, or there is none and nothing comes. Unless it takes a packet, it leaves
the queue as it is. -/
theorem packets_are_taken_once_in_order (calls : List Call) :
    ∃ taker : Nat → Option Nat,
      (∀ now ≤ calls.length,
        (before calls now).queued = (List.range now).filterMap (waiting? calls taker now) ∧
        (before calls now).expressed = (calls.take now).filterMap Call.request?) ∧
      (∀ number now, taker number = some now ↔ Takes calls taker now number) ∧
      (∀ now number other, Takes calls taker now number → Takes calls taker now other →
        number = other) ∧
      (∀ now, ∀ number < now, ∀ data, calls[number]? = some (.put data) →
        (waiting? calls taker now number = some data ↔
          ¬∃ call < now, Takes calls taker call number)) ∧
      ∀ now interest, calls[now]? = some (.express interest) →
        let answer := ((before calls now).express interest).1
        (answer = .refused ↔
          ∃ name, .refuse name ∈ calls.take now ∧ name.isPrefixOf interest.name) ∧
        (answer = .silence ↔ answer ≠ .refused ∧ ∀ number data,
          waiting? calls taker now number = some data → ¬interest.name.isPrefixOf data.name) ∧
        (∀ data, answer = .delivered data ↔ answer ≠ .refused ∧
          ∃ number, Earliest (waiting? calls taker now) interest.name number data) ∧
        (answer = .refused ∨ answer = .silence →
          (before calls (now + 1)).queued = (before calls now).queued) := by
  obtain ⟨taker, hbooks⟩ := exists_books calls (Nat.le_refl _)
  have htaken : ∀ number now, taker number = some now ↔ Takes calls taker now number := by
    intro number now
    rw [hbooks.taken, and_iff_right_of_imp]
    rintro ⟨_, _, hcall, _⟩
    exact (List.getElem?_eq_some_iff.1 hcall).1
  refine ⟨taker, fun now hnow => ⟨hbooks.queued now hnow, expressed_before calls now⟩, htaken,
    fun _ _ _ => Takes.unique, ?_, ?_⟩
  · intro now number hlt data hput
    simp only [waiting?_eq_some_iff, hlt, hput, true_and, ← htaken, Option.mem_def, not_exists,
      not_and']
    exact forall₂_congr fun call _ => Nat.not_lt.symm
  · intro now interest hcall answer
    have hnow : now < calls.length := (List.getElem?_eq_some_iff.1 hcall).1
    have hqueue := hbooks.queued now (Nat.le_of_lt hnow)
    have hexpresses := (before calls now).expresses_express interest
    refine ⟨?_, ?_, fun data => hexpresses.eq_delivered_iff hqueue, ?_⟩
    · simp only [answer, hexpresses.eq_refused_iff, mem_refused_before]
    · simp only [answer, hexpresses.eq_silence_iff, mem_queued_before_iff hqueue,
        forall_exists_index]
      exact and_congr_right fun _ => forall_comm
    · rw [before_succ hcall]
      exact hexpresses.queued_eq

/-- Of two packets that are the same each answers one request, and none a request that is refused or
comes later. -/
example :
    let data : Data := .bare (Name.empty.pushNumber 1)
    let request : Interest := ⟨.empty, .zero, false, none⟩
    let under : Interest := { request with name := data.name }
    let calls : List Call := [.put data, .put data, .express request, .refuse data.name,
      .express under, .express request, .express request]
    [2, 4, 5, 6].map (fun now => (before calls now).queued) = [[data, data], [data], [data], []] ∧
      ((before calls 6).express request).1 = .silence := by decide

end NamedData.Sync.Face
