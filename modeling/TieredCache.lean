import TieredCache.ConfigReader
import TieredCache.KeyOrder
import TieredCache.KeyText
import TieredCache.Session
import TieredCache.Proofs.Chain
import TieredCache.Proofs.Keyed
import TieredCache.Proofs.Layout
import TieredCache.Proofs.Shelf
import TieredCache.Proofs.ShelfCalls
import TieredCache.Proofs.ShelfRuns
import TieredCache.Proofs.Queued
import TieredCache.Proofs.Line
import TieredCache.Proofs.LineCalls
import TieredCache.Proofs.LineRuns
import TieredCache.Proofs.Plain
import TieredCache.Proofs.Stock
import TieredCache.Proofs.Sound
import TieredCache.Proofs.Turns
import TieredCache.Proofs.Traffic
import TieredCache.Proofs.Simulation
import TieredCache.Proofs.Refinement
import TieredCache.Proofs.Balance
import TieredCache.Proofs.CrossTier
import TieredCache.Proofs.Live
import TieredCache.Proofs.Log
import TieredCache.Proofs.Chronicle
import TieredCache.Proofs.Ledger
import TieredCache.Proofs.Freshness
import TieredCache.Proofs.Lookups
import TieredCache.Proofs.PinSet
import TieredCache.Proofs.Observers
import TieredCache.Proofs.Table
import TieredCache.Proofs.Endless
import TieredCache.Proofs.Lossless
import TieredCache.Proofs.Pinned
import TieredCache.Proofs.Timely
import TieredCache.Proofs.Swept
import TieredCache.Proofs.Alike
import TieredCache.Proofs.Purging
import TieredCache.Proofs.Nested
import TieredCache.Proofs.Inclusion
import TieredCache.Proofs.Respelled
import TieredCache.Proofs.Spelling
import TieredCache.Proofs.Contents
import TieredCache.Proofs.Victims
import TieredCache.Proofs.Kept
import TieredCache.Proofs.Rivals
import TieredCache.Proofs.Retained
import TieredCache.Proofs.Refusals
import TieredCache.Proofs.Admitting
import TieredCache.Proofs.Cleared
import TieredCache.Proofs.Shrinking
import TieredCache.Proofs.Resized
import TieredCache.Proofs.Renumbered
import TieredCache.Proofs.Renewed
import TieredCache.Proofs.Backlog
import TieredCache.Proofs.Members
import TieredCache.Proofs.Strict
import TieredCache.Proofs.Intact
import TieredCache.Proofs.Records
import TieredCache.Proofs.Slots
import TieredCache.Proofs.Trimming
