import Chip8.Proofs.Encoding
import Chip8.Proofs.Numeral
import Chip8.Proofs.Grammar
import Chip8.Proofs.Rendering
import Chip8.Proofs.Reassembly
import Chip8.Proofs.Execution
import Chip8.Proofs.History
import Chip8.Proofs.KeyWait
import Chip8.Proofs.Debugging
import Chip8.Proofs.Confinement
import Chip8.Proofs.Stops
import Chip8.Proofs.Independence
import Chip8.Proofs.Loading
import Chip8.Proofs.Countdown
import Chip8.Proofs.Timekeeping
import Chip8.Proofs.Grid
import Chip8.Proofs.Framebuffer
import Chip8.Proofs.Sprite
import Chip8.Proofs.Effects
import Chip8.Proofs.Storage
import Chip8.Proofs.Calls
import Chip8.Proofs.Checked.Machine
import Chip8.Proofs.Assembling
import Chip8.Proofs.Disassembly
import Chip8.Proofs.Advance
import Chip8.Proofs.ListingFile
import Chip8.Proofs.RunningTime
import Chip8.Proofs.Palette
import Chip8.Proofs.Transfer
import Chip8.Proofs.Arithmetic
import Chip8.Proofs.Overlap
import Chip8.Proofs.Redraw
import Chip8.Proofs.Latch
import Chip8.Proofs.EarlyExit
import Chip8.Proofs.Upcoming
