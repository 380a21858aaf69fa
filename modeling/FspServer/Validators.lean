import FspServer.Protocol

/-!
# Validation of a received message

`read_action` passes a message through the basic, the transition and the
semantic validator, and answers with the code of the first one that objects.
`none` is the `nullptr` of a validator that has no objection.
-/

namespace FspServer

/-- `client::State`. -/
inductive ClientState where
  | connected
  | logged
  | processing
deriving DecidableEq, Repr

/-- `basic_validator::validate`. -/
def basicValidate (m : Message) : Option Response :=
  if !m.haveHeader .CommandId then some .CMDID_HDR_REQUIRED else none

/-- `transition_validator::validate`. -/
def transitionValidate (command : Command) : ClientState → Option Response
  | .connected =>
    if command ≠ .SIGNIN ∧ command ≠ .SIGNUP then some .INVALID_CMD_WHILE_IN_CONN_STATE
    else none
  | .logged =>
    if command ≠ .PUSH_FILES ∧ command ≠ .DELETE_ACCOUNT ∧ command ≠ .LOGOUT then
      some .INVALID_CMD_WHILE_IN_LOGGED_STATE
    else none
  | .processing =>
    if command ≠ .DELETE_ACCOUNT ∧ command ≠ .LOGOUT ∧ command ≠ .QUERRY ∧ command ≠ .REPLY then
      some .INVALID_CMD_WHILE_IN_PROCESSING_STATE
    else none

def validateAuthentication (m : Message) : Option Response :=
  if !m.haveHeader .Nickname then some .NICKNAME_HDR_REQUIRED
  else if !m.haveHeader .Password then some .PASSWORD_HDR_REQUIRED
  else none

def validatePushFiles (cfg : Config) (m : Message) : Option Response :=
  if m.haveHeader .ContentLength then
    if !m.haveHeader .ContentType then some .CONTENT_TYPE_HDR_REQUIRED
    else if !cfg.isValidContentTypeFormat (m.header .ContentType) then
      some .CONTENT_TYPE_UNSUPPORTED
    else none
  else none

/-- `validateQuerry`. Only the comparison with `ADD_FILE` looks at the value of
the header; the others compare the name of the header `QuerryType` itself. -/
def validateQuerry (cfg : Config) (m : Message) : Option Response :=
  if !m.haveHeader .QuerryType then some .QUERRY_TYPE_HDR_REQUIRED
  else if (cfg.querryType = cfg.DOWNLOAD_FILE ∨ cfg.querryType = cfg.REMOVE_PATH ∨
      cfg.querryType = cfg.RENAME_PATH ∨ m.header .QuerryType = cfg.ADD_FILE) ∧
      !m.haveHeader .FileName then some .FILE_NAME_HDR_REQUIRED
  else if cfg.querryType = cfg.DOWNLOAD_FILE ∧ !m.haveHeader .FileOwner then
    some .FILE_OWNER_HDR_REQUIRED
  else if cfg.querryType = cfg.DOWNLOAD_FILE ∧ !m.haveHeader .SslVersion then
    some .SSL_VERSION_HDR_REQUIRED
  else if cfg.querryType = cfg.DOWNLOAD_FILE ∧ !cfg.isSslVersionValid (m.header .SslVersion) then
    some .INVALID_SSL_VERSION
  else if cfg.querryType = cfg.RENAME_PATH ∧ !m.haveHeader .FileNewName then
    some .FILE_NEW_NAME_HDR_REQUIRED
  else none

/-- `semantic_validator::validate`; it never calls `validateReply`. -/
def semanticValidate (cfg : Config) (m : Message) : Option Response :=
  match m.command with
  | .SIGNIN | .SIGNUP => validateAuthentication m
  | .PUSH_FILES => validatePushFiles cfg m
  | .QUERRY => validateQuerry cfg m
  | _ => none

/-- `confirmator::confirm`. -/
def confirm : Command → Option Response
  | .SIGNIN => some .SIGNIN_CMD_ACCEPTED
  | .SIGNUP => some .SIGNUP_CMD_ACCEPTED
  | .DELETE_ACCOUNT => some .DELETE_ACCOUNT_CMD_ACCEPTED
  | .LOGOUT => some .LOGOUT_CMD_ACCEPTED
  | .PUSH_FILES => some .PUSH_FILES_CMD_ACCEPTED
  | .QUERRY => some .QUERRY_CMD_ACCEPTED
  | _ => none

/-- Every command that a state admits and that is not a reply is confirmed. -/
theorem confirm_of_transitionValidate {command : Command} {state : ClientState}
    (h : transitionValidate command state = none) (hreply : command ≠ .REPLY) :
    ∃ code, confirm command = some code := by
  cases state <;> cases command <;> simp_all [transitionValidate, confirm]

end FspServer
