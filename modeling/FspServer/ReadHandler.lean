import FspServer.DownloadQueries

/-!
# Exceptions of the read handler

`read_action` runs on the thread of the `io_context`, and nothing catches what it
throws. Three calls behind it may throw: `std::stoull` on the headers `CommandId` and
`FileSize` of a reply, and `create_directories`. The semantic validator looks at no
reply, so the texts reach `std::stoull` unchecked.

* All other messages return: a null confirmation is never written
  (`confirm_of_transitionValidate`).
* `readAction_returns_iff` says exactly for which replies, states of the server and
  outcomes of `create_directories` the handler returns.
-/

namespace FspServer

namespace Server

variable {cfg : Config} {env : FileEnv} {c : ConnId} {m : Message} {s : Server}

/-- The handler ends without an exception. -/
def ReadReturns (cfg : Config) (env : FileEnv) (c : ConnId) (m : Message) (s : Server) : Prop :=
  ∃ s', s.readAction cfg env c m = some (s', .returned)

/-- The reply names a number. If it approves the download of a pending entry, its file
size is a number too, and the directories of the file can be made. -/
def ParsesReply (cfg : Config) (env : FileEnv) (m : Message) (s : Server) : Prop :=
  ∃ id ∈ stoull (m.header .CommandId), m.header .ReplyCode = cfg.DOWNLOAD_FILE_QUERRY_APPROVED →
    (s.downloads.backedupRequests[id]?).isSome →
      (stoull (m.header .FileSize)).isSome ∧ env.createDirectories = true

instance (cfg : Config) (env : FileEnv) (m : Message) (s : Server) :
    Decidable (s.ParsesReply cfg env m) :=
  inferInstanceAs (Decidable (∃ id ∈ _, _ → _ → _))

/-- A reply passes the validators exactly when it has an id and comes from a client in
processing state. -/
theorem readError_reply_eq_none_iff (hreply : m.command = .REPLY) :
    s.readError cfg c m = none ↔ m.haveHeader .CommandId ∧ s.registry.state c = .processing := by
  unfold readError basicValidate
  cases m.haveHeader .CommandId with
  | false => simp
  | true =>
    cases s.registry.state c <;> simp [hreply, transitionValidate, semanticValidate]

theorem beginDownloadTransaction_returned_iff {id : Nat} {compression : Compression}
    {info : DownloadInfo} :
    (s.beginDownloadTransaction cfg env c id compression info).2 = .returned ↔
      env.createDirectories = true := by
  unfold beginDownloadTransaction
  cases env.createDirectories with
  | false => simp
  | true => cases env.createFile <;> simp

theorem resolveDownloadReply_returned_iff :
    (s.resolveDownloadReply cfg env c m).2 = .returned ↔ s.ParsesReply cfg env m := by
  unfold resolveDownloadReply ParsesReply
  cases stoull (m.header .CommandId) with
  | none => simp
  | some id =>
    simp only [Option.mem_def, Option.some.injEq, exists_eq_left']
    by_cases happroved : m.header .ReplyCode = cfg.DOWNLOAD_FILE_QUERRY_APPROVED
    · cases s.downloads.backedupRequests[id]? with
      | none => simp [happroved]
      | some entry =>
        -- the timer of the entry is stopped before its size is parsed
        cases stoull (m.header .FileSize) with
        | none => simp [happroved]
        | some size => simp [happroved, beginDownloadTransaction_returned_iff]
    · simp [happroved]

/-- For every state of the server, every connection and every message: the read handler
returns without an exception exactly when the message is not a reply that passes the
validators with a number missing, or with directories that cannot be made for the
entry it approves. -/
theorem readAction_returns_iff (cfg : Config) (env : FileEnv) (c : ConnId) (m : Message)
    (s : Server) : s.ReadReturns cfg env c m ↔
      (m.command = .REPLY → m.haveHeader .CommandId = true → s.registry.state c = .processing →
        s.ParsesReply cfg env m) := by
  unfold ReadReturns readAction
  by_cases hheartbeat : m.command = .HEARTBEAT
  · simp [hheartbeat]
  · rw [if_neg hheartbeat]
    by_cases hreply : m.command = .REPLY
    · have hnone : s.readError cfg c m = none ↔ _ := readError_reply_eq_none_iff hreply
      cases hread : s.readError cfg c m with
      | some error =>
        refine iff_of_true ⟨_, rfl⟩ fun _ hid hstate => ?_
        cases hread.symm.trans (hnone.mpr ⟨hid, hstate⟩)
      | none =>
        obtain ⟨hid, hstate⟩ := hnone.mp hread
        rw [← resolveDownloadReply_returned_iff (c := c)]
        simp [hreply, hid, hstate, Prod.ext_iff]
    · refine iff_of_true ?_ fun h => absurd h hreply
      cases hread : s.readError cfg c m with
      | some error => exact ⟨_, rfl⟩
      | none =>
        have htransition : transitionValidate m.command (s.registry.state c) = none := by
          unfold readError at hread
          split at hread
          · cases hread
          · split at hread
            · cases hread
            · assumption
        obtain ⟨code, hcode⟩ := confirm_of_transitionValidate htransition hreply
        simp [hreply, hcode]

open Runs Event in
/-- The owner of a file approves the download that it was asked for under the id 2. -/
theorem readAction_returns_approval :
    ∃ s, Reach (Server.step sampleConfig) anyStep (Server.initial sampleConfig []) s ∧
      s.registry.state 0 = .processing ∧ (s.downloads.backedupRequests[2]?).isSome ∧
      s.ReadReturns sampleConfig sampleEnv 0
        ⟨.REPLY, [(.CommandId, ['2']), (.ReplyCode, ['y']), (.FileSize, ['1'])], []⟩ := by
  obtain ⟨s, hs, hstate, hentry, hparses⟩ := exists_reach_of_exec (Server.step sampleConfig)
    (Server.initial sampleConfig [])
    (fun s => s.registry.state 0 = .processing ∧ (s.downloads.backedupRequests[2]?).isSome ∧
      s.ParsesReply sampleConfig sampleEnv
        ⟨.REPLY, [(.CommandId, ['2']), (.ReplyCode, ['y']), (.FileSize, ['1'])], []⟩)
    querryOfFile (by decide +kernel)
  exact ⟨s, hs, hstate, hentry,
    (readAction_returns_iff sampleConfig sampleEnv 0 _ s).mpr fun _ _ _ => hparses⟩

open Runs Event in
/-- Two replies of that client end the handler with an exception, while every call of
the file system succeeds: one whose id is no number, and one that approves the
download without a file size. -/
theorem readAction_raises :
    ∃ s, Reach (Server.step sampleConfig) anyStep (Server.initial sampleConfig []) s ∧
      ¬ s.ReadReturns sampleConfig sampleEnv 0 ⟨.REPLY, [(.CommandId, ['x'])], []⟩ ∧
      ¬ s.ReadReturns sampleConfig sampleEnv 0
        ⟨.REPLY, [(.CommandId, ['2']), (.ReplyCode, ['y'])], []⟩ := by
  obtain ⟨s, hs, hid, hsize⟩ := exists_reach_of_exec (Server.step sampleConfig)
    (Server.initial sampleConfig [])
    (fun s => (s.readAction sampleConfig sampleEnv 0 ⟨.REPLY, [(.CommandId, ['x'])], []⟩).map
        (·.2) = some .raised ∧
      (s.readAction sampleConfig sampleEnv 0
        ⟨.REPLY, [(.CommandId, ['2']), (.ReplyCode, ['y'])], []⟩).map (·.2) = some .raised)
    querryOfFile (by decide +kernel)
  refine ⟨s, hs, ?_, ?_⟩
  · rintro ⟨s', hs'⟩
    simp [hs'] at hid
  · rintro ⟨s', hs'⟩
    simp [hs'] at hsize

end Server

end FspServer
