import Hbackup.World

/-!
# User and group names

`uid2string`, `gid2string`, `string2uid` and `string2gid` of `utils.cc`, which remember what they
have looked up.
-/

namespace Hbackup

/-- `uid2string` and `gid2string`: the name, or the number if there is none. -/
def id2string (table : Names → List (UInt32 × Bytes)) (remember : Names → UInt32 → Bytes → Names)
    (getname : UInt32 → Option Bytes) (id : UInt32) : M Bytes := do
  match (table (← get).names).lookup id with
  | some name => return name
  | none =>
    match getname id with
    | some name =>
      modify fun w => { w with names := remember w.names id name }
      return name
    | none =>
      warning
      modify fun w => { w with names := remember w.names id (decimal id.toNat) }
      return decimal id.toNat

def uid2string (cfg : Config) : UInt32 → M Bytes :=
  id2string Names.uid2names (fun n uid name => { n with uid2names := (uid, name) :: n.uid2names })
    cfg.users.getpwuid

def gid2string (cfg : Config) : UInt32 → M Bytes :=
  id2string Names.gid2names (fun n gid name => { n with gid2names := (gid, name) :: n.gid2names })
    cfg.users.getgrgid

/-- `string2uid` and `string2gid`: the number that the name has, or that it is. -/
def string2id (table : Names → List (Bytes × UInt32)) (remember : Names → Bytes → UInt32 → Names)
    (getid : Bytes → Option UInt32) (msg : String) (s : Bytes) : M UInt32 := do
  match (table (← get).names).lookup s with
  | some id => return id
  | none =>
    if alldigits s then
      let id := (strtol 10 s).toUInt64.toUInt32
      modify fun w => { w with names := remember w.names s id }
      return id
    else
      match getid (cstr s) with
      | some id =>
        modify fun w => { w with names := remember w.names s id }
        return id
      | none => fatalf msg s

def string2uid (cfg : Config) : Bytes → M UInt32 :=
  string2id Names.names2uid (fun n name uid => { n with names2uid := (name, uid) :: n.names2uid })
    cfg.users.getpwnam "no UID with name %s"

def string2gid (cfg : Config) : Bytes → M UInt32 :=
  string2id Names.names2gid (fun n name gid => { n with names2gid := (name, gid) :: n.names2gid })
    cfg.users.getgrnam "no GID with name %s"

end Hbackup
