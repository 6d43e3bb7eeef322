import TransitionNetwork.Network.Bypass
import TransitionNetwork.Network.Structure
import TransitionNetwork.Stream.Sections

/-!
# Loading networks

A network is loaded from a stream by decoding it, marking its precedence decisions, checking its
structure and, if asked for, giving its rules bypass transitions. Any failure ends the load
without a network.
-/

namespace TransitionNetwork

/-- What loading does besides decoding. -/
structure LoadOptions where
  /-- Check the structural rules, again after bypass transitions were added. -/
  verify : Bool := true
  /-- Give every rule of a parser bypass transitions. -/
  bypass : Bool := false

namespace Network

/-- Check the structural rules if asked to. -/
def verifyIf (net : Network) (condition : Bool) : Except LoadError Unit :=
  if condition then net.verify else return ()

/-- What follows decoding. -/
def complete (options : LoadOptions) (net : Network) : Except LoadError Network := do
  let net := net.markPrecedenceDecisions
  net.verifyIf options.verify
  if options.bypass ∧ net.grammar = .parser then
    let net ← net.addBypasses
    net.verifyIf options.verify
    return net
  else return net

/-- The decoder of whole networks under given options. -/
def loader (options : LoadOptions) : Stream.Decoder Network := do
  let net ← Stream.Decoder.network
  Stream.Decoder.ofResult (net.complete options)

/-- Load the network that a list of units holds. -/
def load (options : LoadOptions) (units : List UInt16) : Except LoadError Network :=
  ((loader options).runOn units).1

end Network

end TransitionNetwork
