import FspServer.Step

/-!
# The headers that a handler reads

`messageTasks` and `resolveDownloadReply` read headers of a message without
looking whether they are there. `Message.required` lists them for each command
and each type of query, and `messageTasks_eq_of_agree` and
`resolveDownloadReply_eq_of_agree` show that the list leaves nothing out. What
the two validators look at is a smaller list: no case of `validateQuerry` but the
one of `ADD_FILE` is ever taken, and `validateReply` has no caller.
-/

namespace FspServer

/-- The text of the header name `QuerryType` is none of the types with which
`validateQuerry` compares it. -/
structure Config.NamesDistinct (cfg : Config) : Prop where
  download : cfg.querryType ≠ cfg.DOWNLOAD_FILE
  remove : cfg.querryType ≠ cfg.REMOVE_PATH
  rename : cfg.querryType ≠ cfg.RENAME_PATH

namespace Message

/-- The headers that the code handling a message takes to be there. -/
def required (cfg : Config) (m : Message) : List Header :=
  match m.command with
  | .SIGNIN | .SIGNUP => [.Nickname, .Password]
  | .QUERRY =>
    let type := m.header .QuerryType
    (if type = cfg.DOWNLOAD_FILE then [.FileName, .FileOwner, .SslVersion] else []) ++
    (if type = cfg.ADD_FILE then [.FileName] else []) ++
    (if type = cfg.REMOVE_PATH then [.FileName] else []) ++
    (if type = cfg.RENAME_PATH then [.FileName, .FileNewName] else [])
  | .REPLY =>
    .ReplyCode ::
      if m.header .ReplyCode = cfg.DOWNLOAD_FILE_QUERRY_APPROVED then [.FileSize] else []
  | _ => []

/-- A message carries what its handler reads. -/
structure Carries (cfg : Config) (m : Message) : Prop where
  present : ∀ h ∈ m.required cfg, m.haveHeader h
  sslVersion : m.command = .QUERRY → m.header .QuerryType = cfg.DOWNLOAD_FILE →
    cfg.isSslVersionValid (m.header .SslVersion)

/-- The basic and the semantic validator have no objection. -/
def Validated (cfg : Config) (m : Message) : Prop :=
  basicValidate m = none ∧ semanticValidate cfg m = none

/-- Two messages that nothing which reads only `headers` can tell apart. -/
structure Agree (headers : List Header) (m m' : Message) : Prop where
  command : m.command = m'.command
  body : m.body = m'.body
  header : ∀ h ∈ headers, m.header h = m'.header h

end Message

/-! ## The list is complete

The id of the command and the type of a query are headers that the validators do
look at, and a missing `Compressions` means that nothing is compressed. -/

namespace Server

open Message

theorem messageTasks_eq_of_agree {cfg : Config} {c : ConnId} {m m' : Message}
    (h : Agree (.CommandId :: .QuerryType :: .Compressions :: m.required cfg) m m') :
    messageTasks cfg c m = messageTasks cfg c m' := by
  have hid := h.header .CommandId (by simp)
  have htype := h.header .QuerryType (by simp)
  have hcompressions := h.header .Compressions (by simp)
  have hread : ∀ header ∈ m.required cfg, m.header header = m'.header header := fun header hm =>
    h.header header (by simp [hm])
  simp only [messageTasks, ← h.command, ← h.body, ← hid]
  cases hc : m.command with
  | SIGNIN | SIGNUP =>
    simp [hread .Nickname (by simp [required, hc]), hread .Password (by simp [required, hc])]
  | QUERRY =>
    simp only [required, hc] at hread
    simp only [querryTasks, ← htype, ← hid, ← hcompressions]
    -- each type of query contributes its own task and its own headers
    congr 1
    · congr 1
      · congr 1
        · split <;> simp_all
        · split <;> simp_all
      · split <;> simp_all
    · split <;> simp_all
  | _ => rfl

theorem resolveDownloadReply_eq_of_agree {cfg : Config} {env : FileEnv} {c : ConnId}
    {m m' : Message} {s : Server} (hcommand : m.command = .REPLY)
    (h : Agree (.CommandId :: .QuerryType :: .Compressions :: m.required cfg) m m') :
    s.resolveDownloadReply cfg env c m = s.resolveDownloadReply cfg env c m' := by
  have hcode := h.header .ReplyCode (by simp [required, hcommand])
  have hread : m.header .ReplyCode = cfg.DOWNLOAD_FILE_QUERRY_APPROVED →
      m.header .FileSize = m'.header .FileSize := fun happroved =>
    h.header .FileSize (by simp [required, hcommand, happroved])
  simp only [resolveDownloadReply, ← h.header .CommandId (by simp),
    ← h.header .Compressions (by simp), ← hcode]
  cases stoull (m.header .CommandId) with
  | none => rfl
  | some id =>
    by_cases happroved : m.header .ReplyCode = cfg.DOWNLOAD_FILE_QUERRY_APPROVED
    · rw [← hread happroved]
    · simp [happroved]

end Server

/-! ## What the validators look at -/

@[simp] theorem basicValidate_eq_none_iff (m : Message) :
    basicValidate m = none ↔ m.haveHeader .CommandId := by
  simp [basicValidate]

theorem validateAuthentication_eq_none_iff (m : Message) :
    validateAuthentication m = none ↔ m.haveHeader .Nickname ∧ m.haveHeader .Password := by
  cases hn : m.haveHeader .Nickname <;> cases hp : m.haveHeader .Password <;>
    simp [validateAuthentication, hn, hp]

/-- Of a query, the type is looked at, and the name of the file that is added. -/
theorem validateQuerry_eq_none_iff {cfg : Config} (hcfg : cfg.NamesDistinct) (m : Message) :
    validateQuerry cfg m = none ↔ m.haveHeader .QuerryType ∧
      (m.header .QuerryType = cfg.ADD_FILE → m.haveHeader .FileName) := by
  obtain ⟨hd, hr, hn⟩ := hcfg
  cases ht : m.haveHeader .QuerryType with
  | false => simp [validateQuerry, ht]
  | true => simp [validateQuerry, ht, hd, hr, hn]

/-- The codes of `validateReply`. -/
inductive ReplyError where
  | RPL_CODE_HDR_REQUIRED
  | FILE_SIZE_HDR_REQUIRED
deriving DecidableEq, Repr

/-- `validateReply`, which nothing calls. -/
def validateReply (cfg : Config) (m : Message) : Option ReplyError :=
  if !m.haveHeader .ReplyCode then some .RPL_CODE_HDR_REQUIRED
  else if m.header .ReplyCode = cfg.DOWNLOAD_FILE_QUERRY_APPROVED ∧ !m.haveHeader .FileSize then
    some .FILE_SIZE_HDR_REQUIRED
  else none

/-- It would look at all that the handler of a reply reads. -/
theorem validateReply_eq_none_iff {cfg : Config} {m : Message} (hreply : m.command = .REPLY) :
    validateReply cfg m = none ↔ m.Carries cfg := by
  have hcarries : m.Carries cfg ↔ ∀ h ∈ m.required cfg, m.haveHeader h :=
    ⟨fun h => h.present, fun h => ⟨h, by simp [hreply]⟩⟩
  rw [hcarries, Message.required, hreply]
  cases hcode : m.haveHeader .ReplyCode with
  | false => simp [validateReply, hcode]
  | true => simp [validateReply, hcode]

namespace Message

/-- The kinds of messages of which a required header goes unchecked: a reply, and
every query but the ones of `ADD_FILE` and of a type unknown to the server. -/
def Unchecked (cfg : Config) (command : Command) (type : Str) : Prop :=
  command = .REPLY ∨ command = .QUERRY ∧
    (type = cfg.DOWNLOAD_FILE ∨ type = cfg.RENAME_PATH ∨
      type = cfg.REMOVE_PATH ∧ type ≠ cfg.ADD_FILE)

/-- The headers that are looked at in a message of such a kind. -/
structure Checked (cfg : Config) (m : Message) : Prop where
  commandId : m.haveHeader .CommandId
  querryType : m.command = .QUERRY → m.haveHeader .QuerryType
  fileName : m.command = .QUERRY → m.header .QuerryType = cfg.ADD_FILE → m.haveHeader .FileName

theorem carries_of_validated {cfg : Config} {m : Message} (hcfg : cfg.NamesDistinct)
    (h : m.Validated cfg) (hkind : ¬ Unchecked cfg m.command (m.header .QuerryType)) :
    m.Carries cfg := by
  obtain ⟨-, hsem⟩ := h
  simp only [Unchecked, not_or, not_and, not_not] at hkind
  cases hc : m.command with
  | SIGNIN | SIGNUP =>
    simp only [semanticValidate, hc, validateAuthentication_eq_none_iff] at hsem
    exact ⟨by simp [required, hc, hsem], by simp [hc]⟩
  | QUERRY =>
    simp only [semanticValidate, hc, validateQuerry_eq_none_iff hcfg] at hsem
    obtain ⟨hd, hn, hr⟩ := hkind.2 hc
    refine ⟨fun h hm => ?_, fun _ htype => absurd htype hd⟩
    simp only [required, hc, if_neg hd, if_neg hn, List.nil_append, List.append_nil,
      List.mem_append, List.mem_ite_nil_right, List.mem_singleton] at hm
    rcases hm with ⟨ha, rfl⟩ | ⟨htype, rfl⟩
    · exact hsem.2 ha
    · exact hsem.2 (hr htype)
  | REPLY => exact absurd hc hkind.1
  | _ => exact ⟨by simp [required, hc], by simp [hc]⟩

theorem validated_iff_checked {cfg : Config} {m : Message} (hcfg : cfg.NamesDistinct)
    (hkind : Unchecked cfg m.command (m.header .QuerryType)) :
    m.Validated cfg ↔ m.Checked cfg := by
  simp only [Validated, basicValidate_eq_none_iff, semanticValidate]
  rcases hkind with hc | ⟨hc, -⟩
  · simp only [hc, and_true]
    exact ⟨fun h => ⟨h, by simp [hc], by simp [hc]⟩, fun h => h.commandId⟩
  · simp only [hc, validateQuerry_eq_none_iff hcfg]
    exact ⟨fun h => ⟨h.1, fun _ => h.2.1, fun _ => h.2.2⟩,
      fun h => ⟨h.commandId, h.querryType hc, h.fileName hc⟩⟩

/-- A message of a given kind with no more than what is looked at. -/
def bare (cfg : Config) (command : Command) (type : Str) : Message :=
  ⟨command, (.CommandId, []) :: (.QuerryType, type) ::
    if type = cfg.ADD_FILE then [(.FileName, [])] else [], []⟩

@[simp] theorem command_bare (cfg : Config) (command : Command) (type : Str) :
    (bare cfg command type).command = command := rfl

@[simp] theorem header_bare (cfg : Config) (command : Command) (type : Str) :
    (bare cfg command type).header .QuerryType = type := by
  simp [bare, header]

theorem haveHeader_bare {cfg : Config} {command : Command} {type : Str} {h : Header} :
    (bare cfg command type).haveHeader h ↔
      h = .CommandId ∨ h = .QuerryType ∨ h = .FileName ∧ type = cfg.ADD_FILE := by
  simp only [bare, haveHeader, List.any_eq_true, decide_eq_true_eq, List.mem_cons,
    List.mem_ite_nil_right, List.not_mem_nil, or_false]
  constructor
  · rintro ⟨e, rfl | rfl | ⟨ha, rfl⟩, rfl⟩
    · exact .inl rfl
    · exact .inr (.inl rfl)
    · exact .inr (.inr ⟨rfl, ha⟩)
  · rintro (rfl | rfl | ⟨rfl, ha⟩)
    · exact ⟨_, .inl rfl, rfl⟩
    · exact ⟨_, .inr (.inl rfl), rfl⟩
    · exact ⟨_, .inr (.inr ⟨ha, rfl⟩), rfl⟩

theorem checked_bare (cfg : Config) (command : Command) (type : Str) :
    (bare cfg command type).Checked cfg :=
  ⟨haveHeader_bare.2 (.inl rfl), fun _ => haveHeader_bare.2 (.inr (.inl rfl)),
    fun _ ha => haveHeader_bare.2 (.inr (.inr ⟨rfl, by simpa using ha⟩))⟩

theorem not_carries_bare {cfg : Config} {command : Command} {type : Str}
    (hkind : Unchecked cfg command type) : ¬ (bare cfg command type).Carries cfg := by
  intro h
  rcases hkind with rfl | ⟨rfl, rfl | rfl | ⟨rfl, ha⟩⟩
  · have hcode := h.present .ReplyCode (by simp [required, bare])
    simp [haveHeader_bare] at hcode
  · have howner := h.present .FileOwner (by simp [required, bare, header])
    simp [haveHeader_bare] at howner
  · have hnew := h.present .FileNewName (by simp [required, bare, header])
    simp [haveHeader_bare] at hnew
  · have hfile := h.present .FileName (by simp [required, bare, header])
    simp [haveHeader_bare, ha] at hfile

end Message

open Message

/-- Of which kinds every validated message carries what its handler reads; and of
the other kinds, which messages do. -/
theorem validated_carries_iff (cfg : Config) (hcfg : cfg.NamesDistinct) :
    (∀ command type,
      (∀ m : Message, m.command = command → m.header .QuerryType = type →
        m.Validated cfg → m.Carries cfg) ↔ ¬ Unchecked cfg command type) ∧
    (∀ m : Message, (m.Validated cfg → m.Carries cfg) ↔
      (Unchecked cfg m.command (m.header .QuerryType) → m.Checked cfg → m.Carries cfg)) := by
  refine ⟨fun command type => ⟨fun h hkind => ?_, ?_⟩, fun m => ⟨fun h hkind hm => ?_, ?_⟩⟩
  · have hbare : (bare cfg command type).Validated cfg :=
      (validated_iff_checked hcfg (by simpa using hkind)).2 (checked_bare cfg command type)
    exact not_carries_bare hkind (h _ rfl (header_bare cfg command type) hbare)
  · rintro hkind m rfl rfl hm
    exact carries_of_validated hcfg hm hkind
  · exact h ((validated_iff_checked hcfg hkind).2 hm)
  · intro h hm
    by_cases hkind : Unchecked cfg m.command (m.header .QuerryType)
    · exact h hkind ((validated_iff_checked hcfg hkind).1 hm)
    · exact carries_of_validated hcfg hm hkind

/-- In the sample configuration, of a reply and of a query for a download. -/
theorem validated_carries_sample :
    (∀ type, ¬ ∀ m : Message, m.command = .REPLY → m.header .QuerryType = type →
      m.Validated sampleConfig → m.Carries sampleConfig) ∧
    ¬ ∀ m : Message, m.command = .QUERRY → m.header .QuerryType = ['d'] →
      m.Validated sampleConfig → m.Carries sampleConfig := by
  have hkinds := (validated_carries_iff sampleConfig ⟨by decide, by decide, by decide⟩).1
  exact ⟨fun type => fun h => (hkinds .REPLY type).1 h (.inl rfl),
    fun h => (hkinds .QUERRY ['d']).1 h (.inr ⟨rfl, .inl rfl⟩)⟩

/-- A reply with nothing but the id of a command passes, although its handler
reads the code of the reply; so does a query for a download that names no file. -/
theorem reply_without_code_validated :
    let reply : Message := ⟨.REPLY, [(.CommandId, ['1'])], []⟩
    let download : Message := ⟨.QUERRY, [(.CommandId, ['1']), (.QuerryType, ['d'])], []⟩
    sampleConfig.NamesDistinct ∧ reply.Validated sampleConfig ∧ download.Validated sampleConfig ∧
      ¬ reply.Carries sampleConfig ∧ ¬ download.Carries sampleConfig := by
  refine ⟨⟨by decide, by decide, by decide⟩, ⟨by decide, by decide⟩, ⟨by decide, by decide⟩,
    fun h => ?_, fun h => ?_⟩
  · exact absurd (h.present .ReplyCode (by decide)) (by decide)
  · exact absurd (h.present .FileName (by decide)) (by decide)

end FspServer
