import LayeredConfig.Decimal.Integer
import LayeredConfig.Settings.Basic
import LayeredConfig.Text.Split

/-!
# Arguments

What the arguments of the program ask for. Arguments are read one at a time: a verb
leads to the verbs below it, and a switch has a long name, and some a short one. The
value of a switch is in the same argument or in the next one, which then must not look
like a switch. Switches that every verb has may be given at each verb once, and the
deepest value counts. The first argument that is wrong, or a switch that asks for the
version or for help, ends the reading. After the word `help` only the words follow that
lead to what help is wanted for.
-/

set_option autoImplicit false

namespace LayeredConfig.CommandLine

inductive Verb where
  | program
  | serve
  | setUp
  | config
  | configShow
  | configPath
  deriving DecidableEq, Repr

namespace Verb

def below? : Verb → String → Option Verb
  | .program, "serve" => some .serve
  | .program, "init" => some .setUp
  | .program, "config" => some .config
  | .config, "show" => some .configShow
  | .config, "path" => some .configPath
  | _, _ => none

def isIncomplete : Verb → Bool
  | .program | .config => true
  | _ => false

def title : Verb → String
  | .program => programName
  | .serve => programName ++ "-serve"
  | .setUp => programName ++ "-init"
  | .config => programName ++ "-config"
  | .configShow => programName ++ "-config-show"
  | .configPath => programName ++ "-config-path"

end Verb

inductive Topic where
  | verb (v : Verb)
  | help
  deriving DecidableEq, Repr

def Topic.below? : Topic → String → Option Topic
  | .verb v, name =>
    match v.below? name with
    | some below => some (.verb below)
    | none => if name = "help" && v.isIncomplete then some .help else none
  | .help, _ => none

inductive Switch where
  | config
  | quiet
  | verbose
  | debug
  | json
  | force
  | host
  | portNumber
  | storeRoot
  | help
  | version
  deriving DecidableEq, Repr

namespace Switch

def takesValue : Switch → Bool
  | .config | .host | .portNumber | .storeRoot => true
  | _ => false

def long? (verb : Verb) (name : String) : Option Switch :=
  match verb, name with
  | _, "config" => some .config
  | _, "quiet" => some .quiet
  | _, "verbose" => some .verbose
  | _, "debug" => some .debug
  | _, "json" => some .json
  | _, "help" => some .help
  | _, "version" => some .version
  | .setUp, "force" => some .force
  | .serve, "host" => some .host
  | .serve, "port" => some .portNumber
  | .serve, "store-root" => some .storeRoot
  | _, _ => none

def short? (verb : Verb) (c : Char) : Option Switch :=
  match verb, c with
  | _, 'q' => some .quiet
  | _, 'v' => some .verbose
  | _, 'h' => some .help
  | _, 'V' => some .version
  | .serve, 'p' => some .portNumber
  | _, _ => none

end Switch

structure Arguments where
  verb : Verb
  config : Option String
  json : Bool
  force : Bool
  host : Option String
  portNumber : Option Nat
  storeRoot : Option String
  deriving DecidableEq, Repr

inductive Stop where
  | usage
  | version (verb : Verb)
  | help
  deriving DecidableEq, Repr

/-- Arguments read so far: the switches given at the present verb, the one whose value
comes next, whether no more switches follow, and what help is asked for. -/
structure Reading where
  found : Arguments
  given : List Switch
  awaiting : Option Switch
  closed : Bool
  topic : Option Topic
  deriving DecidableEq, Repr

namespace Reading

def start : Reading := ⟨⟨.program, none, false, false, none, none, none⟩, [], none, false, none⟩

def mark (r : Reading) (switch : Switch) : Except Stop Reading :=
  if r.given.contains switch && switch != .verbose then .error .usage
  else .ok { r with given := switch :: r.given }

def flag (r : Reading) (switch : Switch) : Except Stop Reading :=
  match switch with
  | .help => .error .help
  | .version => .error (.version r.found.verb)
  | .json => mark { r with found := { r.found with json := true } } switch
  | .force => mark { r with found := { r.found with force := true } } switch
  | _ => r.mark switch

def path? (value : String) : Except Stop String :=
  if value = "" then .error .usage else .ok value

def portNumber? (value : String) : Except Stop Nat :=
  match Decimal.int64? value with
  | some n => if 0 ≤ n ∧ n < 0x10000 then .ok n.toNat else .error .usage
  | none => .error .usage

def assign (r : Reading) (switch : Switch) (value : String) : Except Stop Reading := do
  let r ← mark { r with awaiting := none } switch
  let a := r.found
  match switch with
  | .config => pure { r with found := { a with config := some (← path? value) } }
  | .storeRoot => pure { r with found := { a with storeRoot := some (← path? value) } }
  | .host => pure { r with found := { a with host := some value } }
  | .portNumber => pure { r with found := { a with portNumber := some (← portNumber? value) } }
  | _ => throw .usage

def long (r : Reading) (name : String) (value : Option String) : Except Stop Reading :=
  match Switch.long? r.found.verb name, value with
  | none, _ => .error .usage
  | some switch, some value => if switch.takesValue then r.assign switch value else .error .usage
  | some switch, none =>
    if switch.takesValue then .ok { r with awaiting := some switch } else r.flag switch

def short (r : Reading) : List Char → Except Stop Reading
  | [] => .ok r
  | c :: cs =>
    match Switch.short? r.found.verb c with
    | none => .error .usage
    | some switch =>
      if switch.takesValue then
        match cs with
        | [] => .ok { r with awaiting := some switch }
        | '=' :: value => r.assign switch (String.ofList value)
        | value => r.assign switch (String.ofList value)
      else do
        let r ← r.flag switch
        r.short cs

def word (r : Reading) (name : String) : Except Stop Reading :=
  match (Topic.verb r.found.verb).below? name with
  | some (.verb verb) => .ok { r with found := { r.found with verb := verb }, given := [] }
  | some .help => .ok { r with topic := some (.verb r.found.verb) }
  | none => .error .usage

def topicWord (r : Reading) (topic : Topic) (name : String) : Except Stop Reading :=
  match topic.below? name with
  | some below => .ok { r with topic := some below }
  | none => .error .usage

def looksLikeSwitch : List Char → Bool
  | '-' :: _ :: _ => true
  | _ => false

def plain (r : Reading) (argument : String) : Except Stop Reading :=
  match argument.toList with
  | ['-', '-'] => .ok { r with closed := true }
  | '-' :: '-' :: cs =>
    let (name, value) := cs.span (· != '=')
    r.long (String.ofList name) (value.tail?.map String.ofList)
  | '-' :: c :: cs => r.short (c :: cs)
  | _ => r.word argument

def next (r : Reading) (argument : String) : Except Stop Reading :=
  match r.topic, r.awaiting with
  | some topic, _ => r.topicWord topic argument
  | none, some switch =>
    if looksLikeSwitch argument.toList then .error .usage else r.assign switch argument
  | none, none => if r.closed then .error .usage else r.plain argument

def finish (r : Reading) : Except Stop Arguments :=
  if r.topic.isSome then .error .help
  else if r.awaiting.isSome || r.found.verb.isIncomplete then .error .usage
  else .ok r.found

end Reading

def Arguments.read (arguments : List String) : Except Stop Arguments := do
  (← arguments.foldlM Reading.next Reading.start).finish

end LayeredConfig.CommandLine
