import Mathlib.Algebra.Order.Ring.Nat
import Mathlib.Data.Char
import Mathlib.Data.List.Lex
import Mathlib.Data.List.Sort
import Zou.Lib.Trace

/-!
# The tenant registry

One object per tenant and one per custom hostname. `create` and the claim
of a hostname put an object that must not be there, `note_deploy` swaps
the entry it read, and the others read an entry, edit it and put it back
whatever is there by then. Any number of callers interleave between
single store operations, an operation may fail without effect, and a
caller may stop anywhere.

Refs and hostnames are lists of characters. `log` are the calls that
returned `Ok`, oldest first, `claims` says whose `add_host` claimed a
hostname last, and `vanished` are the aliases that were deleted, with
their owner then and the tenant the deleter was called for. Nobody keeps
these three.
-/

namespace Zou

/-- Newest entry format this code reads, and the one it writes. -/
def registryFormat : Nat := 1

/-- The longest a ref, or a label of a hostname, may be. -/
def refMax : Nat := 63

def hostMax : Nat := 253

/-- How often `note_deploy` tries. -/
def deployAttempts : Nat := 5

/-- Why a ref or a hostname is not usable. -/
inductive BadName where
  | empty
  | characters (n : Nat)
  | notAllowed (c : Char)
  | hyphen
  | emptyOrLong
  | noDot
  | label
  | labelHyphen
  deriving DecidableEq, Repr

structure TenantAuth where
  confirmEmail : Bool
  siteUrl : Option String
  deriving DecidableEq, Repr

structure Tenant where
  format : Nat
  tenantRef : List Char
  createdUnix : Nat
  jwtSecret : String
  hosts : List (List Char)
  s3AccessKey : String
  s3SecretKey : String
  deployed : Nat
  auth : Option TenantAuth
  deriving DecidableEq, Repr

structure Alias where
  format : Nat
  host : List Char
  tenantRef : List Char
  deriving DecidableEq, Repr

inductive RegistryError where
  | formatTooNew (found : Nat)
  | badRef (tenantRef : List Char) (why : BadName)
  | badHost (host : List Char) (why : BadName)
  | exists_ (tenantRef : List Char)
  | hostTaken (host : List Char)
  | hostElsewhere (host tenantRef : List Char)
  | missing (tenantRef : List Char)
  /-- A store operation failed, or `note_deploy` gave up on its swap. -/
  | store
  | conflict (tenantRef : List Char)
  deriving DecidableEq, Repr

/-- A new entry. -/
def Tenant.new (tenantRef : List Char) (jwtSecret : String) (createdUnix : Nat) : Tenant :=
  ⟨registryFormat, tenantRef, createdUnix, jwtSecret, [], "", "", 0, none⟩

/-! ## Names -/

/-- The length of the text in bytes. -/
def byteLen (cs : List Char) : Nat := (cs.map Char.utf8Size).sum

/-- A character a label may have. -/
def labelChar (c : Char) : Bool := c.isLower || c.isDigit || c = '-'

def hyphened (cs : List Char) : Bool := cs.head? = some '-' || cs.getLast? = some '-'

def checkRef (tenantRef : List Char) : Except RegistryError Unit :=
  let bad why := .error (.badRef tenantRef why)
  if tenantRef = [] then bad .empty
  else if byteLen tenantRef > refMax then bad (.characters (byteLen tenantRef))
  else match tenantRef.find? fun c => !labelChar c with
    | some c => bad (.notAllowed c)
    | none => if hyphened tenantRef then bad .hyphen else .ok ()

/-- What is wrong with one label of a hostname. -/
def badLabel (label : List Char) : Option BadName :=
  if label = [] ∨ byteLen label > refMax then some .label
  else if hyphened label then some .labelHyphen
  else (label.find? fun c => !labelChar c).map .notAllowed

def checkHost (host : List Char) : Except RegistryError Unit :=
  let bad why := .error (.badHost host why)
  if host = [] ∨ byteLen host > hostMax then bad .emptyOrLong
  else if '.' ∉ host then bad .noDot
  else match (host.splitOn '.').findSome? badLabel with
    | some why => bad why
    | none => .ok ()

/-! ## Calls -/

inductive RegistryCall where
  | create (entry : Tenant)
  | addHost (tenantRef host : List Char)
  | removeHost (tenantRef host : List Char)
  | setS3 (tenantRef : List Char) (access secret : String)
  | setAuth (tenantRef : List Char) (auth : Option TenantAuth)
  | noteDeploy (tenantRef : List Char)
  | delete (tenantRef : List Char)
  deriving DecidableEq, Repr

namespace RegistryCall

/-- The tenant a call is for. -/
def tenantRef : RegistryCall → List Char
  | .create e => e.tenantRef
  | .addHost t _ | .removeHost t _ | .setS3 t _ _ | .setAuth t _ | .noteDeploy t | .delete t => t

/-- The hosts a call leaves in an entry. -/
def hosts : RegistryCall → List (List Char) → List (List Char)
  | .addHost _ h, hs => if hs.contains h then hs else (hs ++ [h]).insertionSort (· ≤ ·)
  | .removeHost _ h, hs => hs.filter (· ≠ h)
  | _, hs => hs

/-- What a call makes of the entry it read. -/
def edit : RegistryCall → Tenant → Tenant
  | .addHost t h, e => { e with hosts := hosts (.addHost t h) e.hosts }
  | .removeHost t h, e => { e with hosts := hosts (.removeHost t h) e.hosts }
  | .setS3 _ access secret, e => { e with s3AccessKey := access, s3SecretKey := secret }
  | .setAuth _ auth, e => { e with auth := auth }
  | .noteDeploy _, e => { e with deployed := e.deployed + 1 }
  | .create _, e | .delete _, e => e

end RegistryCall

/-- The next store operation of a caller. `entry` is the entry it read. -/
inductive RegistryPc (V : Type) where
  | idle
  | createPut (entry : Tenant)
  | addGet (t h : List Char)
  | addAlias (t h : List Char) (entry : Tenant)
  /-- The hostname was taken, and whose it is comes next. -/
  | addOwner (t h : List Char) (entry : Tenant)
  | removeOwner (t h : List Char)
  | removeAlias (t h : List Char)
  | removeGet (t h : List Char)
  | setGet (c : RegistryCall)
  /-- The unconditional put of `c`'s edit. -/
  | write (c : RegistryCall) (entry : Tenant)
  | deployGet (t : List Char) (tries : Nat)
  | deployPut (t : List Char) (tries : Nat) (entry : Tenant) (expected : V)
  | deleteGet (t : List Char)
  | deleteHosts (t : List Char)
  | deleteOwner (t h : List Char) (rest : List (List Char))
  | deleteAlias (t h : List Char) (rest : List (List Char))
  | deleteEntry (t : List Char)
  | done (r : Except RegistryError (Option Nat))

structure Registry (V : Type) where
  entries : List Char → Option (Tenant × V)
  aliases : List Char → Option Alias
  pcs : Nat → RegistryPc V
  log : List RegistryCall
  claims : List Char → Option (List Char)
  vanished : List (List Char × List Char × List Char)

/-- A caller begins a call, does its next store operation or stops. `tok`
is the token a put is answered with. -/
inductive RegistryLabel (V : Type) where
  | call (i : Nat) (c : RegistryCall)
  | op (i : Nat) (ok : Bool) (tok : V)
  | stop (i : Nat)

namespace Registry

variable {V : Type}

def goto (s : Registry V) (i : Nat) (pc : RegistryPc V) : Registry V :=
  { s with pcs := Function.update s.pcs i pc }

/-- The call ends in an error. -/
def fail (s : Registry V) (i : Nat) (e : RegistryError) : Registry V := s.goto i (.done (.error e))

/-- The call `c` returns `Ok`. -/
def succeed (s : Registry V) (i : Nat) (c : RegistryCall) (n : Option Nat) : Registry V :=
  { s with log := s.log ++ [c] }.goto i (.done (.ok n))

/-- Does the entry at `t` become `e` under `tok`. -/
def putEntry (s : Registry V) (t : List Char) (e : Option (Tenant × V)) : Registry V :=
  { s with entries := Function.update s.entries t e }

/-- `registry::get`. -/
def get (s : Registry V) (t : List Char) : Except RegistryError (Option Tenant) :=
  match s.entries t with
  | none => .ok none
  | some (e, _) => if e.format > registryFormat then .error (.formatTooNew e.format) else .ok e

/-- `host_ref`. -/
def hostRef (s : Registry V) (h : List Char) : Except RegistryError (Option (List Char)) :=
  match s.aliases h with
  | none => .ok none
  | some a =>
    if a.format > registryFormat then .error (.formatTooNew a.format) else .ok a.tenantRef

/-- The hostname becomes the tenant's. -/
def claim (s : Registry V) (t h : List Char) : Registry V :=
  { s with
    aliases := Function.update s.aliases h (some ⟨registryFormat, h, t⟩)
    claims := Function.update s.claims h (some t) }

/-- A call for `t` deletes the alias of `h`, whoever has it. -/
def dropAlias (s : Registry V) (t h : List Char) : Registry V :=
  { s with
    aliases := Function.update s.aliases h none
    vanished := s.vanished ++ ((s.aliases h).map fun a => (h, a.tenantRef, t)).toList }

/-- `add_host` past the alias: the entry it read lists the host, or is put
back with it. -/
def addEntry (s : Registry V) (i : Nat) (t h : List Char) (e : Tenant) : Registry V :=
  if e.hosts.contains h then s.succeed i (.addHost t h) none else s.goto i (.write (.addHost t h) e)

/-- The hosts of a deleted tenant that are left. -/
def deleteRest (s : Registry V) (i : Nat) (t : List Char) : List (List Char) → Registry V
  | [] => s.goto i (.deleteEntry t)
  | h :: rest => s.goto i (.deleteOwner t h rest)

/-- Where a call begins. -/
def start (s : Registry V) (i : Nat) : RegistryCall → Registry V
  | .create e => match checkRef e.tenantRef with
      | .ok _ => s.goto i (.createPut e)
      | .error err => s.fail i err
  | .addHost t h => match checkHost h with
      | .ok _ => s.goto i (.addGet t h)
      | .error err => s.fail i err
  | .removeHost t h => s.goto i (.removeOwner t h)
  | .setS3 t access secret => s.goto i (.setGet (.setS3 t access secret))
  | .setAuth t auth => s.goto i (.setGet (.setAuth t auth))
  | .noteDeploy t => s.goto i (.deployGet t 0)
  | .delete t => s.goto i (.deleteGet t)

variable [DecidableEq V] (content : V → Tenant)

/-- The next store operation of caller `i`, done. -/
def act (s : Registry V) (i : Nat) (tok : V) : RegistryPc V → Option (Registry V)
  | .createPut e => match s.entries e.tenantRef with
      | some _ => some (s.fail i (.exists_ e.tenantRef))
      | none => if content tok = e then
          some ((s.putEntry e.tenantRef (some (e, tok))).succeed i (.create e) none) else none
  | .addGet t h => some <| match s.get t with
      | .error err => s.fail i err
      | .ok none => s.fail i (.missing t)
      | .ok (some e) => s.goto i (.addAlias t h e)
  | .addAlias t h e => some <| match s.aliases h with
      | none => (s.claim t h).addEntry i t h e
      | some _ => s.goto i (.addOwner t h e)
  | .addOwner t h e => some <| match s.hostRef h with
      | .error err => s.fail i err
      | .ok owner => if owner = some t then s.addEntry i t h e else s.fail i (.hostTaken h)
  | .removeOwner t h => some <| match s.hostRef h with
      | .error err => s.fail i err
      | .ok none => s.goto i (.removeGet t h)
      | .ok (some owner) =>
        if owner = t then s.goto i (.removeAlias t h) else s.fail i (.hostElsewhere h owner)
  | .removeAlias t h => some ((s.dropAlias t h).goto i (.removeGet t h))
  | .removeGet t h => some <| match s.get t with
      | .error err => s.fail i err
      | .ok none => s.succeed i (.removeHost t h) none
      | .ok (some e) => if e.hosts.contains h then s.goto i (.write (.removeHost t h) e)
          else s.succeed i (.removeHost t h) none
  | .setGet c => some <| match s.get c.tenantRef with
      | .error err => s.fail i err
      | .ok none => s.fail i (.missing c.tenantRef)
      | .ok (some e) => s.goto i (.write c e)
  | .write c e => if content tok = c.edit e then
      some ((s.putEntry c.tenantRef (some (c.edit e, tok))).succeed i c none) else none
  | .deployGet t tries => some <| match s.entries t with
      | none => s.fail i (.missing t)
      | some (e, v) => if e.format > registryFormat then s.fail i (.formatTooNew e.format)
          else s.goto i (.deployPut t tries e v)
  | .deployPut t tries e v =>
    let c := RegistryCall.noteDeploy t
    if (s.entries t).map Prod.snd = some v then
      if content tok = c.edit e then
        some ((s.putEntry t (some (c.edit e, tok))).succeed i c (some (c.edit e).deployed))
      else none
    else some (if tries + 1 < deployAttempts then s.goto i (.deployGet t (tries + 1))
      else s.fail i (.conflict t))
  | .deleteGet t => some <| match s.get t with
      | .error err => s.fail i err
      | .ok none => s.fail i (.missing t)
      | .ok (some _) => s.goto i (.deleteHosts t)
  | .deleteHosts t => some <| match s.get t with
      | .error err => s.fail i err
      | .ok e => s.deleteRest i t ((e.map Tenant.hosts).getD [])
  | .deleteOwner t h rest => some <| match s.hostRef h with
      | .error err => s.fail i err
      | .ok owner =>
        if owner = some t then s.goto i (.deleteAlias t h rest) else s.deleteRest i t rest
  | .deleteAlias t h rest => some ((s.dropAlias t h).deleteRest i t rest)
  | .deleteEntry t => some ((s.putEntry t none).succeed i (.delete t) none)
  | .idle | .done _ => none

def next (s : Registry V) : RegistryLabel V → Option (Registry V)
  | .call i c => match s.pcs i with
      | .idle | .done _ => some (s.start i c)
      | _ => none
  | .op i ok tok =>
    if ok then s.act content i tok (s.pcs i)
    else (s.act content i tok (s.pcs i)).map fun _ => s.fail i .store
  | .stop i => some (s.goto i .idle)

end Registry

end Zou
