import Dsac.Replication.Register

namespace Dsac.Replication

/-! The requests to a replica, and how their results become those of the futures. -/

/-- The values of JSON fields that the client tells apart. -/
inductive Json where
  | integer (value : Int)
  | unsigned (value : Nat)
  | string (text : String)
  | other
deriving DecidableEq, Repr

namespace Json

def isNumberInteger : Json → Bool
  | .integer _ | .unsigned _ => true
  | .string _ | .other => false

def isNumberUnsigned : Json → Bool
  | .unsigned _ => true
  | .integer _ | .string _ | .other => false

/-- `get<std::int32_t>()` of a number. -/
def toInt32 : Json → Int
  | .integer value => value.bmod 4294967296
  | .unsigned value => Int.bmod value 4294967296
  | .string _ | .other => 0

/-- `get<std::size_t>()` of an unsigned number. -/
def toSize : Json → Nat
  | .unsigned value => value
  | .integer _ | .string _ | .other => 0

end Json

/-- A response of a replica. The body is its fields, or nothing if it is no JSON. -/
structure Response where
  status : Nat
  body : Option (String → Option Json)

/-- The exceptions that the task of a request can end with; `parsing` stands for those of
the JSON library. -/
inductive RequestException where
  | invalidArgument (what : String)
  | notFound (what : String)
  | serviceUnavailable (what : String)
  | parsing
deriving DecidableEq, Repr

def fromJson (json : String → Option Json) : Except RequestException RegisterValueObject :=
  match (json "value").filter Json.isNumberInteger with
  | none => .error (.invalidArgument "Input data is incorrect or the required field 'value' is missing")
  | some value =>
      match (json "timestamp").filter Json.isNumberUnsigned with
      | none => .error (.invalidArgument "Input data is incorrect or the required field 'timestamp' is missing")
      | some timestamp => .ok ⟨value.toInt32, timestamp.toSize⟩

structure RegisterReplicaClient where
  host_ : String
  port_ : Nat
deriving DecidableEq, Repr

namespace RegisterReplicaClient

/-- `async_write`: the result of `Post`, which is none if there is no response, is dropped. -/
def asyncWrite (_client : RegisterReplicaClient) (_request : RegisterValueObject)
    (_response : Option Response) : Except RequestException Unit := .ok ()

def asyncRead (client : RegisterReplicaClient) (response : Option Response) :
    Except RequestException RegisterValueObject :=
  match response with
  | none => .error (.serviceUnavailable
      s!"Failed to execute the request to host={client.host_}, port={client.port_}")
  | some response =>
      match response.body with
      | none => .error .parsing
      | some responseJson =>
          let hasErrorMessage := (responseJson "error_message").isSome
          let notFoundRegister := response.status == 404
          if hasErrorMessage && notFoundRegister then
            match responseJson "error_message" with
            | some (.string message) => .error (.notFound message)
            | _ => .error .parsing
          else if hasErrorMessage then
            .error (.serviceUnavailable
              s!"Unexpected error response from host={client.host_}, port={client.port_}")
          else fromJson responseJson

/-- The replica has answered, with a value or that its register is not initialized. -/
def answered (client : RegisterReplicaClient) (response : Option Response) : Bool :=
  match client.asyncRead response with
  | .ok _ | .error (.notFound _) => true
  | .error _ => false

end RegisterReplicaClient

/-- What becomes of a request to write. -/
structure WriteRequest where
  executed : Bool
  response : Option Response

end Dsac.Replication
