import DuplicateBlocks.Counters
import DuplicateBlocks.Settings
import DuplicateBlocks.Window

namespace DuplicateBlocks

structure Harvest where
  counters : Counters := {}
  -- The blocks, the latest first.
  blocks : List Block := []

namespace Harvest

-- Gathers the blocks of a list of windows, until one is refused. Tells whether none was.
def gather (s : Settings) (id : String) : List Window → Harvest → Bool × Harvest
  | [], h => (true, h)
  | win :: wins, h =>
    let seen := { h.counters with windows := h.counters.windows.succ }
    if !win.isDense s.window then
      gather s id wins { h with counters := { seen with sparseWindows := seen.sparseWindows.succ } }
    else
      let normal := Code.normalize s.code win.raw
      let (admitted, counters) := (seen.recordNormal normal).admitBlock s.maxBlocks
      if admitted then gather s id wins { counters, blocks := win.block id s.window normal.text :: h.blocks }
      else (false, { h with counters })

-- Gathers the blocks of a source. Once a block was refused nothing is looked at any more.
def addSource (s : Settings) (src : Source) (h : Harvest) : Bool × Harvest :=
  if h.counters.blocksTruncated then (false, h)
  else
    let lines := src.lineArray
    let counters := { h.counters with lines := h.counters.lines + .ofNat lines.size }
    gather s src.id (Window.all s.window lines) { h with counters }

-- Gathers the blocks of all sources that are not excluded, until one is refused.
def addSources (s : Settings) : List Source → Harvest → Harvest
  | [], h => h
  | src :: rest, h =>
    if s.excluded.excludes src.id then
      addSources s rest
        { h with counters := { h.counters with excludedUnits := h.counters.excludedUnits.succ } }
    else
      let (admitted, h) := addSource s src h
      if admitted then addSources s rest h else h

def ofSources (s : Settings) (sources : List Source) : Harvest :=
  addSources s sources { counters := { units := .ofNat sources.length } }

end Harvest
end DuplicateBlocks
