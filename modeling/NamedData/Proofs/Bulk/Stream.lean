import Mathlib.Logic.Relation
import NamedData.Bulk
import NamedData.Proofs.Packet.Wire
import NamedData.Store.Memory
/-!
# What a connection makes of a stream

What is stored from a stream can be said without a buffer and without reads: go through the stream
element by element as far as there is a whole one that would fit into the buffer (`walk`). A
connection is at each point of its reads somewhere on that way. The bytes in its buffer and those
still to come are what is left to go through, and in the buffer there is no whole element.

    next? s = some e → next? (s ++ r) = some e                                  (next?_append)
    walk c.drain.repo c.drain.accepted (c.drain.buffer ++ rest)
      = walk c.repo c.accepted (c.buffer ++ rest)                               (walk_drain)
    Follows o c (bytes ++ rest) → Follows o (c.receive bytes) rest              (Follows.receive)
-/

namespace NamedData.Bulk

open Tlv

/-! ## Elements of a stream -/

/-- The element at the front of a stream, if it is whole and not larger than the buffer. -/
def next? (stream : Bytes) : Option Element :=
  (Element.read stream).toOption.filter fun element => element.wire.length ≤ bufferSize

theorem next?_eq_some_iff {stream : Bytes} {element : Element} :
    next? stream = some element ↔
      Element.read stream = .ok element ∧ element.wire.length ≤ bufferSize := by
  rw [next?, Option.filter_eq_some_iff]
  cases Element.read stream with
  | error cause => simp [Except.toOption]
  | ok found => simp [Except.toOption]

theorem next?_of_error {stream : Bytes} {cause : DecodeError}
    (h : Element.read stream = .error cause) : next? stream = none := by
  rw [next?, h]
  rfl

/-- What comes later does not change the element at the front. -/
theorem next?_append {stream : Bytes} {element : Element} (h : next? stream = some element)
    (r : Bytes) : next? (stream ++ r) = some element := by
  obtain ⟨hread, hfits⟩ := next?_eq_some_iff.1 h
  exact next?_eq_some_iff.2 ⟨Element.read_append hread r, hfits⟩

/-- Behind as many bytes as the buffer holds there is nothing that would complete an element. -/
theorem next?_append_of_full {stream : Bytes} (h : next? stream = none)
    (full : bufferSize ≤ stream.length) (r : Bytes) : next? (stream ++ r) = none := by
  cases hnext : next? (stream ++ r) with
  | none => rfl
  | some element =>
    obtain ⟨hread, hfits⟩ := next?_eq_some_iff.1 hnext
    have hshort := Element.read_of_append hread (Nat.le_trans hfits full)
    rw [next?_eq_some_iff.2 ⟨hshort, hfits⟩] at h
    cases h

section

variable {σ : Type} [Store.Backend σ]

/-! ## Going through a stream -/

/-- The packet of an element, if the element is of that type and can be read. -/
def packet? (element : Element) : Option Data :=
  if element.typ = Code.data then (Data.decode element.wire).toOption else none

/-- Stores the packet of an element that is one. It counts if the repository does not fail. -/
def offer (repo : Repo σ) (element : Element) : Nat × Repo σ :=
  match packet? element with
  | none => (0, repo)
  | some data =>
    match repo.insert data with
    | (.ok _, repo) => (1, repo)
    | (.error _, repo) => (0, repo)

/-- Goes through a stream, with some packets accepted before it. Where there is no whole element
of a size that fits, what remains is either too large for one or the stream is over. -/
def walk (repo : Repo σ) (accepted : Nat) (stream : Bytes) : Except Error Nat × Repo σ :=
  match _whole : next? stream with
  | some element =>
    let (taken, repo) := offer repo element
    walk repo (accepted + taken) (stream.drop element.wire.length)
  | none => (if bufferSize ≤ stream.length then .error .oversized else .ok accepted, repo)
termination_by stream.length
decreasing_by
  have := Element.wire_length_of_read (next?_eq_some_iff.1 _whole).1
  rw [List.length_drop]
  omega

variable {repo : Repo σ} {accepted : Nat} {stream : Bytes}

theorem walk_of_some {element : Element} (h : next? stream = some element) :
    walk repo accepted stream =
      walk (offer repo element).2 (accepted + (offer repo element).1)
        (stream.drop element.wire.length) := by
  rw [walk]
  split
  · next found hfound =>
    cases hfound.symm.trans h
    rfl
  · next hnone =>
    rw [h] at hnone
    cases hnone

theorem walk_of_none (h : next? stream = none) :
    walk repo accepted stream =
      (if bufferSize ≤ stream.length then .error .oversized else .ok accepted, repo) := by
  rw [walk]
  split
  · next found hfound =>
    rw [h] at hfound
    cases hfound
  · rfl

namespace Connection

/-! ## The buffer -/

variable {c : Connection σ}

/-- Taking an element is offering it to the repository; nothing else changes. -/
theorem take_eq (element : Element) :
    c.take element =
      { c with accepted := c.accepted + (offer c.repo element).1
               repo := (offer c.repo element).2 } := by
  unfold take offer packet?
  by_cases htyp : element.typ = Code.data
  · rw [if_neg (not_not_intro htyp), if_pos htyp]
    cases hdata : Data.decode element.wire with
    | error cause => rfl
    | ok data =>
      show (match c.repo.insert data with
        | (.ok _, repo) => { c with accepted := c.accepted + 1, repo }
        | (.error _, repo) => { c with repo }) = _
      simp only [Except.toOption]
      rcases c.repo.insert data with ⟨cause | outcome, repo⟩
      · rfl
      · rfl
  · rw [if_pos htyp, if_neg htyp]
    rfl

theorem next?_drain : next? c.drain.buffer = none := by
  fun_induction drain c with
  | case1 c cause hread => exact next?_of_error hread
  | case2 c element hread ih => exact ih

theorem dropped_drain : c.drain.dropped = c.dropped := by
  fun_induction drain c with
  | case1 c cause hread => rfl
  | case2 c element hread ih => rw [ih, take_eq]

/-- Taking out the whole elements at the front of the buffer is going through them. -/
theorem walk_drain (room : c.buffer.length ≤ bufferSize) (rest : Bytes) :
    walk c.drain.repo c.drain.accepted (c.drain.buffer ++ rest) =
      walk c.repo c.accepted (c.buffer ++ rest) := by
  fun_induction drain c with
  | case1 c cause hread => rfl
  | case2 c element hread ih =>
    -- no element that is whole in the buffer can be too large for it
    have hlength := (Element.wire_length_of_read hread).2
    have hnext : next? c.buffer = some element :=
      next?_eq_some_iff.2 ⟨hread, Nat.le_trans hlength room⟩
    have hroom : (c.buffer.drop element.wire.length).length ≤ bufferSize := by
      rw [List.length_drop]
      omega
    rw [walk_of_some (next?_append hnext rest), List.drop_append_of_le_length hlength, ih hroom,
      take_eq]

/-! ## Reads -/

/-- The space in the buffer that the next read can fill. -/
def free (c : Connection σ) : Nat := bufferSize - c.buffer.length

/-- One read of a connection with a part of the stream ahead: it brings at least one byte, and no
more than there is free space for. -/
inductive Step : Connection σ × Bytes → Connection σ × Bytes → Prop where
  | read (c : Connection σ) (bytes rest : Bytes) : c.dropped = none → bytes ≠ [] →
    bytes.length ≤ c.free → Step (c, bytes ++ rest) (c.receive bytes, rest)

/-- Whether a connection is over: it was dropped, or the next read brings nothing, since no space
is free or since the stream has ended. -/
def Stopped (s : Connection σ × Bytes) : Prop :=
  s.1.dropped ≠ none ∨ s.1.free = 0 ∨ s.2 = []

/-- Whether a connection with some of the stream ahead is on its way to an outcome. -/
structure Follows (outcome : Except Error Nat × Repo σ) (c : Connection σ) (ahead : Bytes) :
    Prop where
  room : c.dropped = none → c.buffer.length < bufferSize
  waits : c.dropped = none → next? c.buffer = none
  leads : c.dropped = none → walk c.repo c.accepted (c.buffer ++ ahead) = outcome
  ended : ∀ cause, c.dropped = some cause → outcome = (.error cause, c.repo)

namespace Follows

variable {outcome : Except Error Nat × Repo σ} {bytes ahead rest : Bytes}

theorem ofRepo (repo : Repo σ) (stream : Bytes) :
    Follows (walk repo 0 stream) (ofRepo repo) stream :=
  ⟨fun _ => Nat.zero_lt_succ _, fun _ => rfl, fun _ => rfl, nofun⟩

/-- To a connection that was dropped it does not matter what would have come. -/
theorem of_dropped (h : Follows outcome c ahead) (dropped : c.dropped ≠ none) :
    Follows outcome c rest :=
  ⟨fun hnone => absurd hnone dropped, fun hnone => absurd hnone dropped,
    fun hnone => absurd hnone dropped, h.ended⟩

theorem free_pos (h : Follows outcome c ahead) (inUse : c.dropped = none) : 0 < c.free := by
  have hroom := h.room inUse
  unfold free
  omega

theorem receive (h : Follows outcome c (bytes ++ rest)) (inUse : c.dropped = none)
    (fits : bytes.length ≤ c.free) : Follows outcome (c.receive bytes) rest := by
  let loaded : Connection σ := { c with buffer := c.buffer ++ bytes }
  have hloaded : loaded.buffer.length ≤ bufferSize := by
    have hroom := h.room inUse
    show (c.buffer ++ bytes).length ≤ bufferSize
    unfold free at fits
    rw [List.length_append]
    omega
  have hwalk : walk loaded.drain.repo loaded.drain.accepted (loaded.drain.buffer ++ rest) =
      outcome := by
    rw [walk_drain hloaded]
    show walk c.repo c.accepted (c.buffer ++ bytes ++ rest) = outcome
    rw [List.append_assoc]
    exact h.leads inUse
  have hdropped : loaded.drain.dropped = none := dropped_drain.trans inUse
  unfold Connection.receive
  by_cases hroom : loaded.drain.buffer.length < bufferSize
  · rw [if_pos hroom]
    refine ⟨fun _ => hroom, fun _ => next?_drain, fun _ => hwalk, ?_⟩
    intro cause hcause
    rw [hdropped] at hcause
    cases hcause
  · -- a full buffer without a whole element is where the stream itself has none that fits
    rw [if_neg hroom]
    refine ⟨nofun, nofun, nofun, ?_⟩
    rintro _ ⟨⟩
    have hfull : bufferSize ≤ loaded.drain.buffer.length := Nat.le_of_not_lt hroom
    have hremains : bufferSize ≤ (loaded.drain.buffer ++ rest).length := by
      rw [List.length_append]
      omega
    rw [← hwalk, walk_of_none (next?_append_of_full next?_drain hfull rest), if_pos hremains]

/-- A piece of any size is taken in by reads. -/
theorem feed {piece : Bytes} (h : Follows outcome c (piece ++ rest)) :
    Follows outcome (c.feed piece) rest := by
  fun_induction Connection.feed c piece with
  | case1 c piece idle =>
    rcases idle with dropped | rfl
    · exact h.of_dropped (Option.isSome_iff_ne_none.1 dropped)
    · exact h
  | case2 c piece busy free full =>
    have inUse : c.dropped = none :=
      Option.not_isSome_iff_eq_none.1 fun dropped => busy (Or.inl dropped)
    exact absurd full (Nat.ne_of_gt (h.free_pos inUse))
  | case3 c piece busy free full ih =>
    have inUse : c.dropped = none :=
      Option.not_isSome_iff_eq_none.1 fun dropped => busy (Or.inl dropped)
    apply ih
    refine Follows.receive ?_ inUse (List.length_take_le _ _)
    show Follows outcome c (piece.take free ++ (piece.drop free ++ rest))
    rw [← List.append_assoc, List.take_append_drop]
    exact h

theorem foldl_feed {pieces : List Bytes} (h : Follows outcome c (pieces.flatten ++ rest)) :
    Follows outcome (pieces.foldl Connection.feed c) rest := by
  induction pieces generalizing c with
  | nil => exact h
  | cons piece pieces ih =>
    rw [List.flatten_cons, List.append_assoc] at h
    exact ih h.feed

/-- Once the stream is over or the connection dropped, it has come to its outcome. -/
theorem result_eq (h : Follows outcome c ahead) (atEnd : c.dropped = none → ahead = []) :
    (c.result, c.repo) = outcome := by
  unfold result
  cases hdropped : c.dropped with
  | none =>
    have hroom := h.room hdropped
    rw [← h.leads hdropped, atEnd hdropped, List.append_nil, walk_of_none (h.waits hdropped),
      if_neg (Nat.not_le.2 hroom)]
  | some cause => exact (h.ended cause hdropped).symm

end Follows

/-! ## Runs -/

theorem follows_of_step {outcome : Except Error Nat × Repo σ} {s t : Connection σ × Bytes}
    (h : Follows outcome s.1 s.2) (step : Step s t) : Follows outcome t.1 t.2 := by
  cases step with
  | read c bytes rest inUse _ fits => exact h.receive inUse fits

theorem follows_of_run {s : Connection σ × Bytes}
    (run : Relation.ReflTransGen Step (ofRepo repo, stream) s) :
    Follows (walk repo 0 stream) s.1 s.2 := by
  induction run with
  | refl => exact Follows.ofRepo repo stream
  | tail _ step ih => exact follows_of_step ih step

/-- Every connection stops, since each read leaves less of the stream ahead. -/
theorem exists_stopped (s : Connection σ × Bytes) :
    ∃ t, Relation.ReflTransGen Step s t ∧ Stopped t := by
  obtain ⟨c, ahead⟩ := s
  induction ahead generalizing c with
  | nil => exact ⟨(c, []), .refl, Or.inr (Or.inr rfl)⟩
  | cons byte rest ih =>
    by_cases hstopped : Stopped (c, byte :: rest)
    · exact ⟨_, .refl, hstopped⟩
    · -- bytes that come one at a time always fit
      simp only [Stopped, not_or, not_not] at hstopped
      obtain ⟨inUse, hfree, _⟩ := hstopped
      have hstep : Step (c, [byte] ++ rest) (c.receive [byte], rest) :=
        .read c [byte] rest inUse (List.cons_ne_nil _ _) (Nat.pos_of_ne_zero hfree)
      obtain ⟨t, hrun, ht⟩ := ih (c.receive [byte])
      exact ⟨t, .head hstep hrun, ht⟩

/-- However a stream comes in, the connection has the outcome of going through it. At every point
of every run of reads there is space for the next, so that a read brings nothing only at the end
of the stream; where the run stops it has that outcome, and every run goes on to where it stops. A
stream in pieces of any size, each taken in by reads of all the free space, is such a run. -/
theorem cuts_make_no_difference (repo : Repo σ) (stream : Bytes) :
    (∀ s, Relation.ReflTransGen Step (ofRepo repo, stream) s →
      (s.1.dropped = none → 0 < s.1.free) ∧
      (Stopped s → (s.1.result, s.1.repo) = walk repo 0 stream) ∧
      ∃ t, Relation.ReflTransGen Step s t ∧ Stopped t) ∧
    ∀ pieces : List Bytes, pieces.flatten = stream → serve repo pieces = walk repo 0 stream := by
  constructor
  · intro s run
    have h := follows_of_run run
    refine ⟨h.free_pos, ?_, exists_stopped s⟩
    intro stopped
    apply h.result_eq
    intro inUse
    rcases stopped with dropped | full | atEnd
    · exact absurd inUse dropped
    · exact absurd full (Nat.ne_of_gt (h.free_pos inUse))
    · exact atEnd
  · rintro pieces rfl
    have h : Follows (walk repo 0 pieces.flatten) (ofRepo repo) (pieces.flatten ++ []) := by
      rw [List.append_nil]
      exact Follows.ofRepo repo pieces.flatten
    exact h.foldl_feed.result_eq fun _ => rfl

/-- A packet that is cut inside its header is stored like one that comes whole. -/
theorem cuts_make_no_difference_in_header :
    let repo := Repo.ofBackend (Store.MemoryStore.empty 1)
    let wire := Data.blank.wire
    let c := ((ofRepo repo).receive (wire.take 1)).receive (wire.drop 1)
    c.result = .ok 1 ∧ serve repo [wire.take 1, wire.drop 1] = (c.result, c.repo) ∧
      serve repo [wire] = (c.result, c.repo) := by
  intro repo wire c
  have hfirst : ((ofRepo repo).receive (wire.take 1)).dropped = none ∧
      ((ofRepo repo).receive (wire.take 1)).free = 8799 := by
    rw [receive, drain]
    exact ⟨rfl, rfl⟩
  have hone : Step (ofRepo repo, wire) ((ofRepo repo).receive (wire.take 1), wire.drop 1) :=
    .read _ (wire.take 1) (wire.drop 1) rfl (List.cons_ne_nil _ _) (by decide)
  have htwo : Step ((ofRepo repo).receive (wire.take 1), wire.drop 1 ++ []) (c, []) :=
    .read _ (wire.drop 1) [] hfirst.1 (List.cons_ne_nil _ _) (by rw [hfirst.2]; decide)
  have hwalk : (walk repo 0 wire).1 = .ok 1 := by
    obtain ⟨found, hfound, _, hname, _⟩ := Data.readable_blank.decode_wire
    have hnext : next? wire = some ⟨Code.data, wire.drop 2, wire⟩ := by decide
    have hpacket : packet? ⟨Code.data, wire.drop 2, wire⟩ = some found := by
      rw [packet?, if_pos rfl, hfound]
      rfl
    have hoffer : (offer repo ⟨Code.data, wire.drop 2, wire⟩).1 = 1 := by
      rw [offer, hpacket]
      cases found
      cases hname
      rfl
    rw [walk_of_some hnext, hoffer, List.drop_length, walk_of_none rfl]
    rfl
  obtain ⟨hruns, hpieces⟩ := cuts_make_no_difference repo wire
  have hc := (hruns (c, []) (.tail (.single hone) htwo)).2.1 (Or.inr (Or.inr rfl))
  refine ⟨(congrArg Prod.fst hc).trans hwalk, ?_, ?_⟩
  · rw [hc, hpieces [wire.take 1, wire.drop 1] rfl]
  · rw [hc, hpieces [wire] rfl]

end Connection

end

end NamedData.Bulk
