import NamedData.Proofs.Sync.Command
/-!
# Sessions that signed commands start

A signed start command that is accepted begins a session whose limits are those of the command after
the wire: its timeout in whole milliseconds, as many as a word counts. So a session never has more
time than it was meant to have. But a timeout of zero stands for no bound, and there are spans that
are not zero of which the wire leaves nothing: those below a millisecond, and those whose
milliseconds are a multiple of two to the power of sixty-four. A session that was meant to have so
little time, or so much, goes on for ever.

    span.onWire = 0 ↔ 2 ^ 64 ∣ the whole milliseconds of span             (onWire_eq_zero_iff)
    n.onInterest (start p) = (.ok 100, n.turn (.start g p.onWire) at rest)     (onInterest_start)
-/

namespace NamedData

/-! ## Spans on the wire -/

namespace Duration

theorem onWire_le (span : Duration) : span.onWire.nanoseconds ≤ span.nanoseconds := by
  have hword : span.nanoseconds / 1000000 % 2 ^ 64 ≤ span.nanoseconds / 1000000 := Nat.mod_le _ _
  exact Nat.le_trans (Nat.mul_le_mul_right _ hword) (Nat.div_mul_le_self _ _)

theorem onWire_eq_zero_iff {span : Duration} :
    span.onWire = .zero ↔ 2 ^ 64 ∣ span.nanoseconds / 1000000 := by
  rw [Nat.dvd_iff_mod_eq_zero, onWire, zero, Duration.mk.injEq]
  omega

end Duration

namespace Sync

/-! ## Start commands -/

/-- A message that starts a session leaves a running one that has just begun. -/
theorem Manager.running?_begin (m : Manager) (now : Nat) (root : Name)
    (parameter : Command.Parameter) :
    (m.begin now root parameter).1.sessions.running? root m.nextGeneration =
      some (⟨m.nextGeneration, 0, .running ⟨.ofParameter parameter, now, 0⟩⟩,
        ⟨.ofParameter parameter, now, 0⟩) := by
  rw [begin, Sessions.running?_put_running _ _ rfl, if_pos rfl]

namespace Node

open Command

variable {σ : Type} [Store.Backend σ] {node : Node σ} {parameter : Parameter} {group : Name}

theorem running?_turn_start (node : Node σ) (group : Name) (parameter : Parameter) :
    (node.turn (.start group parameter)).2.manager.sessions.running? group
        node.manager.nextGeneration =
      some (⟨node.manager.nextGeneration, 0, .running ⟨.ofParameter parameter, node.now, 0⟩⟩,
        ⟨.ofParameter parameter, node.now, 0⟩) := by
  rw [turn_manager]
  exact node.manager.running?_begin node.now group parameter

/-- A start command that is accepted starts a session with what the wire has left of its block. -/
theorem onInterest_start (live : node.life = .running) (named : parameter.name = some group)
    (sound : group.Sound) (short : parameter.encode.length < 2 ^ 63)
    (accepted : node.setting.validator.checkCommand
      (interest node.setting.commandRoot .start parameter) = .ok ()) :
    node.onInterest (interest node.setting.commandRoot .start parameter) =
      (.ok (.ofStatus .inProgress), (node.turn (.start group parameter.onWire)).2.settle) := by
  have hsound : ∀ name ∈ parameter.name, name.Sound := by
    rw [named]
    rintro _ ⟨rfl⟩
    exact sound
  have hread : Parameter.decode parameter.encode = .ok parameter.onWire :=
    (Parameter.decode_encode_eq_ok_iff short).2 ⟨hsound, rfl⟩
  have hcarries : Carries node.setting.commandRoot
      (interest node.setting.commandRoot .start parameter).name .start parameter.onWire :=
    carries_interest hread
  have hnamed : parameter.onWire.name = some group := named
  have hconveyed : node.Conveys (interest node.setting.commandRoot .start parameter)
      (.start group parameter.onWire) := ⟨.start, _, group, hcarries, hnamed, rfl⟩
  obtain ⟨reply, _, hreply, _, hrequest⟩ := hconveyed.request live
  obtain rfl : Response.ofStatus .inProgress = reply := Option.some.inj hreply
  unfold onInterest
  rw [accepted, parse_eq_ok_iff.2 hcarries]
  simp only [command, hnamed]
  exact hrequest

/-- A start puts nothing in the queue. -/
theorem QuietAbout.turn_start {root : Name} (h : node.QuietAbout root) (group : Name)
    (parameter : Parameter) : (node.turn (.start group parameter)).2.QuietAbout root := by
  intro waiting hwaiting
  rcases root_of_mem_foldl_perform_queue hwaiting with hbefore | ⟨effect, heffect, htells⟩
  · exact h waiting hbefore
  · rcases List.mem_append.1 heffect with hrelease | hsubscribe
    · obtain ⟨session, _, rfl⟩ := List.mem_map.1 hrelease
      rw [Manager.tells?_release] at htells
      cases htells
    · rw [List.mem_singleton.1 hsubscribe] at htells
      cases htells

/-- The session that a start has begun is there when the node is at rest. -/
theorem QuietAbout.running?_settle_turn_start (h : node.QuietAbout group) (parameter : Parameter) :
    (node.turn (.start group parameter)).2.settle.manager.sessions.running? group
        node.manager.nextGeneration =
      some (⟨node.manager.nextGeneration, 0, .running ⟨.ofParameter parameter, node.now, 0⟩⟩,
        ⟨.ofParameter parameter, node.now, 0⟩) := by
  rw [Sessions.running?, settle, (h.turn_start group parameter).get?_settleWithin patience]
  exact node.running?_turn_start group parameter

/-- An accepted start command begins a session, which is there when the node is at rest if no
message about the group waits. If the command sets a timeout, the session has that timeout in whole
milliseconds, as many as a word counts, and no more time than the command says; and it can time out,
unless nothing of the timeout is left. -/
theorem started_session_has_whole_milliseconds (live : node.life = .running)
    (named : parameter.name = some group) (sound : group.Sound)
    (short : parameter.encode.length < 2 ^ 63)
    (accepted : node.setting.validator.checkCommand
      (interest node.setting.commandRoot .start parameter) = .ok ()) :
    let turned := (node.turn (.start group parameter.onWire)).2
    let generation := node.manager.nextGeneration
    node.onInterest (interest node.setting.commandRoot .start parameter) =
        (.ok (.ofStatus .inProgress), turned.settle) ∧
      ∃ session progress,
        turned.manager.sessions.running? group generation = some (session, progress) ∧
        (node.QuietAbout group →
          turned.settle.manager.sessions.running? group generation = some (session, progress)) ∧
        ∀ span ∈ parameter.syncTimeout,
          progress.limits.timeout = span.onWire ∧
          progress.limits.timeout.nanoseconds ≤ span.nanoseconds ∧
          (progress.limits.timeout = .zero ↔ 2 ^ 64 ∣ span.nanoseconds / 1000000) ∧
          ((∃ later, progress.timedOut later = true) ↔ ¬2 ^ 64 ∣ span.nanoseconds / 1000000) := by
  intro turned generation
  refine ⟨onInterest_start live named sound short accepted, _, _,
    node.running?_turn_start group parameter.onWire,
    fun quiet => quiet.running?_settle_turn_start parameter.onWire, fun span hspan => ?_⟩
  have htimeout : (Limits.ofParameter parameter.onWire).timeout = span.onWire := by
    rw [Limits.ofParameter, Parameter.onWire, hspan, Option.map_some, Option.getD_some]
  simp only [htimeout]
  refine ⟨trivial, span.onWire_le, Duration.onWire_eq_zero_iff, ?_⟩
  rw [Progress.exists_timedOut_iff, htimeout]
  exact not_congr Duration.onWire_eq_zero_iff

/-- A node with a fresh manager that takes commands signed by their digest. -/
def idle : Node Store.MemoryStore :=
  fresh ⟨.empty, .digest .empty, .zero⟩ 0 (.empty .empty false) (.ofBackend (.empty 1))

theorem quietAbout_idle (group : Name) : idle.QuietAbout group := nofun

theorem checkCommand_idle (verb : Verb) (parameter : Parameter) :
    idle.setting.validator.checkCommand (interest .empty verb parameter) = .ok () :=
  Validator.checkCommand_digest_eq_ok_iff.2
    ⟨isPrefixOf_interest _ _ _, Interest.verifiesDigest_sign _⟩

/-- Under the empty root a session with seven milliseconds and a half is started with seven. -/
theorem started_session_has_whole_milliseconds_of_seven :
    let group : Name := ⟨[.ofText "group"]⟩
    let parameter : Parameter := ⟨some group, some ⟨7500000⟩, none, none⟩
    let signed := interest .empty .start parameter
    group.Sound ∧ parameter.encode.length < 2 ^ 63 ∧
      idle.setting.validator.checkCommand signed = .ok () ∧
      ∃ session progress after, idle.onInterest signed = (.ok (.ofStatus .inProgress), after) ∧
        after.manager.sessions.running? group 1 = some (session, progress) ∧
        progress.limits.timeout = .ofMillis 7 ∧ ∃ later, progress.timedOut later = true := by
  intro group parameter signed
  have hsound : group.Sound := Name.sound_singleton (by decide)
  have hshort : parameter.encode.length < 2 ^ 63 := by decide
  have hlive : idle.life = .running := rfl
  have haccepted : idle.setting.validator.checkCommand signed = .ok () := checkCommand_idle _ _
  obtain ⟨hanswer, session, progress, _, hruns, htimeout⟩ :=
    started_session_has_whole_milliseconds hlive rfl hsound hshort haccepted
  obtain ⟨hspan, _, _, hbounded⟩ := htimeout _ rfl
  exact ⟨hsound, hshort, haccepted, session, progress, _, hanswer, hruns (quietAbout_idle _),
    hspan, hbounded.2 (by decide)⟩

/-- A session that is to end half a millisecond after the last report goes on for ever if a signed
command starts it, but not if it is started with the parameter block itself. -/
theorem short_timeout_is_lost :
    let group : Name := ⟨[.ofText "group"]⟩
    let parameter : Parameter := ⟨some group, some ⟨500000⟩, none, none⟩
    let sent := (idle.onInterest (interest .empty .start parameter)).2
    let direct := (idle.command .start parameter).2
    (∃ session progress, sent.manager.sessions.running? group 1 = some (session, progress) ∧
      progress.limits.timeout = .zero ∧ ∀ later, progress.timedOut later = false) ∧
    ∃ session progress, direct.manager.sessions.running? group 1 = some (session, progress) ∧
      progress.limits.timeout = ⟨500000⟩ ∧ progress.timedOut 500001 = true := by
  intro group parameter sent direct
  have hsound : group.Sound := Name.sound_singleton (by decide)
  have hlive : idle.life = .running := rfl
  have hsent : sent = (idle.turn (.start group parameter.onWire)).2.settle :=
    congrArg Prod.snd (onInterest_start hlive rfl hsound (by decide) (checkCommand_idle _ _))
  have hdirect : direct = (idle.turn (.start group parameter)).2.settle := rfl
  rw [hsent, hdirect]
  refine ⟨⟨_, _, (quietAbout_idle group).running?_settle_turn_start parameter.onWire, rfl, ?_⟩,
    _, _, (quietAbout_idle group).running?_settle_turn_start parameter, rfl, rfl⟩
  intro later
  rfl

end Node

end Sync

end NamedData
