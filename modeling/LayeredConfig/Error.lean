import LayeredConfig.OverrideMode

/-!
# Errors

Each error is a cause with what it is about; its wording is in one place,
`message`. Errors of the store become errors of the configuration by
`ConfigError.ofStore`, which knows the section that was being written or read.
-/

set_option autoImplicit false

namespace LayeredConfig

inductive DocumentFault where
  | notToml
  | modesNotTable
  | unknownMode (name : String)
  | sectionsNotTable
  | sectionNotTable (name : String)
  | specialFloat
  | nullItem
  deriving DecidableEq, Repr

def DocumentFault.message : DocumentFault → String
  | .notToml => "TOML parse error"
  | .modesNotTable => "override_modes must be a table"
  | .unknownMode name => s!"invalid override mode for '{name}'"
  | .sectionsNotTable => "sections must be a table"
  | .sectionNotTable name => s!"section '{name}' must be a table"
  | .specialFloat => "invalid float value"
  | .nullItem => "null is not representable"

inductive IoFault where
  | diskFull
  | notFound
  | present
  | isDirectory
  | notDirectory
  | busy
  | nameTooLong
  | badName
  | notText
  deriving DecidableEq, Repr

def IoFault.message : IoFault → String
  | .diskFull => "disk full"
  | .notFound => "no such file or directory"
  | .present => "file exists"
  | .isDirectory => "is a directory"
  | .notDirectory => "not a directory"
  | .busy => "resource busy"
  | .nameTooLong => "file name too long"
  | .badName => "file name contained an unexpected NUL byte"
  | .notText => "stream did not contain valid UTF-8"

inductive StoreError where
  | locked (file : String)
  | missing (file : String)
  | parse (path : String) (fault : DocumentFault)
  | unreadable (path : String) (why : String)
  | invalidPath (path : String)
  | io (fault : IoFault)
  deriving DecidableEq, Repr

def StoreError.message : StoreError → String
  | .locked file => s!"file in use: {file}"
  | .missing file => s!"missing: {file}"
  | .parse path fault => s!"parse error in {path}: {fault.message}"
  | .unreadable path why => s!"parse error in {path}: {why}"
  | .invalidPath path => s!"invalid path: {path}"
  | .io fault => s!"io error: {fault.message}"

inductive TransactionState where
  | pending
  | committed
  | aborted
  deriving DecidableEq, Repr

def TransactionState.name : TransactionState → String
  | .pending => "pending"
  | .committed => "committed"
  | .aborted => "aborted"

inductive LockReason where
  | fileInUse (file : String)
  | staged (owner : String)
  | denied
  | deniedAbove
  | stated (text : String)
  deriving DecidableEq, Repr

def LockReason.message : LockReason → String
  | .fileInUse file => s!"file in use: {file}"
  | .staged owner => s!"staged in transaction {owner}"
  | .denied => "override mode is deny at or above this level"
  | .deniedAbove => "override mode is deny above this level"
  | .stated text => text

inductive Subject where
  | site (id : Int)
  | siteId (id : Int)
  | siteName (name : String)
  | sectionNamed (name : String)
  | transaction (id : String)
  | stated (text : String)
  deriving DecidableEq, Repr

def Subject.message : Subject → String
  | .site id => s!"site {id}"
  | .siteId id => s!"site id {id}"
  | .siteName name => s!"site '{name}'"
  | .sectionNamed name => s!"section '{name}'"
  | .transaction id => s!"transaction {id}"
  | .stated text => text

inductive Invalid where
  | fileWithSite
  | fileWithPath
  | pathWithoutSite
  | emptyFile
  | parentSegment (path : String)
  | siteId
  | siteName
  | applicationPath
  | physicalPath
  | sites (why : String)
  | notObject (name : String)
  | unrepresentable (name : String)
  | emptyMutation
  | hostOnly (name : String)
  | storePath (path : String)
  | stated (text : String)
  deriving DecidableEq, Repr

def Invalid.message : Invalid → String
  | .fileWithSite => "config_path cannot be combined with site_id"
  | .fileWithPath => "config_path cannot be combined with path"
  | .pathWithoutSite => "path requires site_id"
  | .emptyFile => "config_path must not be empty"
  | .parentSegment path => s!"path must not contain '..': {path}"
  | .siteId => "site id must be positive"
  | .siteName => "site name must not be empty"
  | .applicationPath => "application path must not be the site root"
  | .physicalPath => "physical_path must name a directory below the store root"
  | .sites why => s!"invalid sites section: {why}"
  | .notObject name => s!"section '{name}' must be an object"
  | .unrepresentable name => s!"section '{name}': {DocumentFault.nullItem.message}"
  | .emptyMutation => "mutation changes nothing"
  | .hostOnly name => s!"section '{name}' can only be set at the global level"
  | .storePath path => s!"invalid path: {path}"
  | .stated text => text

inductive ConfigError where
  | locked (sectionPath : String) (reason : LockReason)
  | scopeNotFound (what : String)
  | notFound (what : Subject)
  | alreadyExists (what : Subject)
  | transactionState (id : String) (state : TransactionState)
  | validation (why : Invalid)
  | storage (why : String)
  deriving DecidableEq, Repr

namespace ConfigError

def message : ConfigError → String
  | .locked path _ => s!"section is locked: {path}"
  | .scopeNotFound what => s!"scope not found: {what}"
  | .notFound what => s!"not found: {what.message}"
  | .alreadyExists what => s!"already exists: {what.message}"
  | .transactionState id state => s!"transaction {id} is {state.name}"
  | .validation why => s!"validation failed: {why.message}"
  | .storage why => s!"storage failure: {why}"

def ofStore (sectionPath : String) : StoreError → ConfigError
  | .locked file => .locked sectionPath (.fileInUse file)
  | .missing file => .scopeNotFound file
  | .invalidPath path => .validation (.storePath path)
  | e => .storage e.message

end ConfigError

end LayeredConfig
