import LiveC.Link.Place
import LiveC.Session.Basic

/-!
An engine: sessions under names that share a registry and a host, so that what one has
loaded can be offered to the others.
-/

namespace LiveC

structure Engine (σ : Type) where
  registry : Registry := {}
  host : Host σ
  /-- The sessions, the one that was used last first. -/
  sessions : List (String × Session) := []

namespace Engine

variable {σ : Type}

def session? (e : Engine σ) (name : String) : Option Session := e.sessions.lookup name

def setSession (e : Engine σ) (name : String) (s : Session) : Engine σ :=
  { e with sessions := (name, s) :: e.sessions.filter (·.1 != name) }

/-- Removes a session with what it has loaded. -/
def dropSession (e : Engine σ) (name : String) : Engine σ :=
  let host := match e.session? name with
    | some s => (s.unload e.host).2
    | none => e.host
  { e with host, sessions := e.sessions.filter (·.1 != name) }

/-- Starts a session, in place of the one of the same name. -/
def startSession (e : Engine σ) (name : String) (compiler : Compiler) : Engine σ :=
  (e.dropSession name).setSession name { compiler }

/-- The loaded blocks of all sessions, under the names of their sessions. -/
def places (e : Engine σ) : List Place :=
  e.sessions.flatMap fun (name, s) => (s.image?.map (·.places (name ++ ":"))).getD []

/-- Links and loads a session. -/
def linkAndLoad (e : Engine σ) (name : String) (s : Session) :
    Except LoadError Unit × Engine σ :=
  let (result, s, host) := s.linkAndLoad e.registry e.host
  (result, { e with host }.setSession name s)

end Engine

end LiveC
