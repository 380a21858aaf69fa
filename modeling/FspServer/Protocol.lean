import Mathlib.Algebra.Group.Nat.Defs
import Mathlib.Data.List.Basic
import Mathlib.Data.List.TakeWhile

/-!
# Messages of the file sharing protocol

What the server receives from a client and what it writes to one. The parser and
the message builders are outside the server's sources, so a received message is
its command, its headers and its decoded body, and a written message is the
values that the builders are given. The constants of the protocol and the
functions of it that the server calls are the parameter `Config`.
-/

namespace FspServer

abbrev Str := List Char

/-- What is read of a text through `data()`: it ends at a null character. -/
def cString (text : Str) : Str := text.takeWhile fun c => c ≠ Char.ofNat 0

theorem cString_cString (text : Str) : cString (cString text) = cString text :=
  List.takeWhile_idem ..

/-- A connection object; the numbers count the accepted connections. -/
abbrev ConnId := Nat

/-- Whether `assert` evaluates its argument or is compiled out (`NDEBUG`). -/
inductive Build where
  | debug
  | release
deriving DecidableEq, Repr

/-! ## Received messages -/

/-- The command of a message; `other` is any text that is none of the commands. -/
inductive Command where
  | HEARTBEAT
  | SIGNIN
  | SIGNUP
  | PUSH_FILES
  | QUERRY
  | DELETE_ACCOUNT
  | LOGOUT
  | REPLY
  | other (text : Str)
deriving DecidableEq, Repr

/-- The headers that the server reads. -/
inductive Header where
  | CommandId
  | Nickname
  | Password
  | ContentLength
  | ContentType
  | QuerryType
  | FileName
  | FileOwner
  | SslVersion
  | Compressions
  | FileNewName
  | ReplyCode
  | FileSize
deriving DecidableEq, Repr

/-- A parsed message. `body` is what `message::body` puts into a list. -/
structure Message where
  command : Command
  headers : List (Header × Str)
  body : List Str

namespace Message

def haveHeader (m : Message) (h : Header) : Bool := m.headers.any fun e => e.1 = h

/-- `operator[]`: the empty text when the header is not there. -/
def header (m : Message) (h : Header) : Str :=
  ((m.headers.find? fun e => e.1 = h).map (·.2)).getD []

end Message

/-- The white space of the C locale. -/
def isSpace (c : Char) : Bool := c = ' ' ∨ (9 ≤ c.toNat ∧ c.toNat ≤ 13)

/-- `std::stoull`: leading white space, a sign, then at least one digit; what
follows the digits is ignored, and a minus sign negates modulo `2 ^ 64`. `none`
when it throws. -/
def stoull (text : Str) : Option Nat :=
  let text := text.dropWhile isSpace
  let (negative, text) := match text with
    | '-' :: rest => (true, rest)
    | '+' :: rest => (false, rest)
    | rest => (false, rest)
  let digits := text.takeWhile Char.isDigit
  let value := digits.foldl (fun n d => 10 * n + (d.toNat - 48)) 0
  if digits = [] ∨ 2 ^ 64 ≤ value then none
  else some (if negative then (2 ^ 64 - value) % 2 ^ 64 else value)

/-! ## Written messages -/

/-- The reply codes that the server writes. -/
inductive Response where
  | CMDID_HDR_REQUIRED
  | NICKNAME_HDR_REQUIRED
  | PASSWORD_HDR_REQUIRED
  | CONTENT_TYPE_HDR_REQUIRED
  | CONTENT_TYPE_UNSUPPORTED
  | QUERRY_TYPE_HDR_REQUIRED
  | FILE_NAME_HDR_REQUIRED
  | FILE_OWNER_HDR_REQUIRED
  | SSL_VERSION_HDR_REQUIRED
  | INVALID_SSL_VERSION
  | FILE_NEW_NAME_HDR_REQUIRED
  | INVALID_CMD_WHILE_IN_CONN_STATE
  | INVALID_CMD_WHILE_IN_LOGGED_STATE
  | INVALID_CMD_WHILE_IN_PROCESSING_STATE
  | SIGNIN_CMD_ACCEPTED
  | SIGNUP_CMD_ACCEPTED
  | DELETE_ACCOUNT_CMD_ACCEPTED
  | LOGOUT_CMD_ACCEPTED
  | PUSH_FILES_CMD_ACCEPTED
  | QUERRY_CMD_ACCEPTED
  | USER_ALREADY_LOGGED
  | LOGIN_SUCCESSFULL
  | NICKNAME_INCORRECT
  | PASSWORD_INCORRECT
  | REGISTERING_SUCCESSFULL
  | USER_ALREADY_REGISTERED
  | DELETING_ACCOUNT_SUCCESSFULL
  | REMOVE_ACCOUNT_FAILED
  | PUSH_FILES_SUCCESS
  | ADD_FILE_SUCCESSFULL
  | REMOVE_FILE_SUCCESSFULL
  | REMOVE_FILE_FAILED
  | RENAME_FILE_SUCCESSFULL
  | RENAME_FILE_FAILED
  | INTERNAL_SERVER_ERR
  | DOWNLOAD_DENY
  | SSL_VERSION_INCOMPATIBLE
deriving DecidableEq, Repr

inductive SslVersion where
  | sslv23
  | other
deriving DecidableEq, Repr

inductive Compression where
  | nocompression
  | zlib
  | gzip
  | other
deriving DecidableEq, Repr

/-- The notifications, with the headers and the body they carry.
`USER_REGISTERED_FILES` has no body when the client shares nothing. -/
inductive Notification where
  | USER_LOGGED_OUT (fileOwner : Str)
  | USER_REGISTERED_FILES (fileOwner : Str) (files : Option (List Str))
  | FILES_OF_OTHER_USERS (files : List (Str × List Str))
  | USER_ADDED_NEW_FILE (fileOwner fileName : Str)
  | USER_DELETED_FILE (fileOwner fileName : Str)
  | USER_RENAMED_FILE (fileOwner fileName fileNewName : Str)
  | USER_REQUESTED_FILE_DOWNLOAD (transactionID port : Nat) (compression : Compression)
deriving DecidableEq, Repr

/-- A message written to a client. -/
inductive Outgoing where
  | heartbeat
  | reply (code : Response) (requestID : Str)
  | downloadApproved (requestID : Str) (fileSize port transactionID : Nat)
      (compression : Compression)
  | downloadQuerry (requestID : Nat) (fileName : Str)
  | notification (n : Notification)
deriving DecidableEq, Repr

/-! ## Parameters -/

/-- The build, the constants of the protocol and the functions of it that the
server calls. -/
structure Config where
  build : Build
  PATH_SEPARATOR_CHR : Char
  PATH_ROOT : Str
  /-- The text of the header name `QuerryType`. -/
  querryType : Str
  DOWNLOAD_FILE : Str
  ADD_FILE : Str
  REMOVE_PATH : Str
  RENAME_PATH : Str
  CMD_ID_WHEN_NO_CMDID_PRESENT : Str
  /-- The text of the reply code with which an owner approves a download. -/
  DOWNLOAD_FILE_QUERRY_APPROVED : Str
  isValidContentTypeFormat : Str → Bool
  isSslVersionValid : Str → Bool
  version : Str → SslVersion
  csvCompressions : Str → List Compression
  /-- The length of the text that is built for a notification. -/
  messageLength : Notification → Nat
  downloadPort : Nat

end FspServer
