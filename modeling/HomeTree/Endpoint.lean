namespace HomeTree

inductive Endpoint where
  | unix (path : String)
  /-- A host and the number of a service there. -/
  | tcp (address : String)
deriving DecidableEq, Repr

/-- Why a text is no endpoint. -/
inductive EndpointFault where
  | noPath
  | noNumber (address : String)
  | unknown (text : String)
deriving DecidableEq, Repr

def EndpointFault.message : EndpointFault → String
  | .noPath => "unix endpoint needs a socket path"
  | .noNumber address => "tcp endpoint '" ++ address ++ "' needs host:port"
  | .unknown text => "unrecognized endpoint '" ++ text ++ "' (expected unix:PATH or tcp:HOST:PORT)"

namespace Endpoint

def unixMark : List Char := ['u', 'n', 'i', 'x', ':']

def tcpMark : List Char := ['t', 'c', 'p', ':']

/-- A bare absolute path is a socket file too. -/
def ofChars (cs : List Char) : Except EndpointFault Endpoint :=
  if unixMark.isPrefixOf cs then
    let path := cs.drop unixMark.length
    if path.isEmpty then .error .noPath else .ok (.unix (String.ofList path))
  else if tcpMark.isPrefixOf cs then
    let address := cs.drop tcpMark.length
    if address.contains ':' then .ok (.tcp (String.ofList address))
    else .error (.noNumber (String.ofList address))
  else if cs.head? = some '/' then .ok (.unix (String.ofList cs))
  else .error (.unknown (String.ofList cs))

def parse (s : String) : Except EndpointFault Endpoint :=
  ofChars s.toList

def text : Endpoint → String
  | .unix path => String.ofList unixMark ++ path
  | .tcp address => String.ofList tcpMark ++ address

end Endpoint

end HomeTree
