import ActionChain.Event

/-!
Logs of events: what a listener has heard, in order.
-/
namespace ActionChain.Bench

abbrev EventLog := List Event

namespace EventLog

def types (l : EventLog) : List String := l.map (·.type)

def navigations (l : EventLog) : List String := l.filterMap Event.navigationUrl?

def heard (l : EventLog) (type : String) : Bool := l.any (·.type = type)

end EventLog

end ActionChain.Bench
