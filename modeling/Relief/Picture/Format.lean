import Relief.Picture.Anymap.File
import Relief.Picture.Bitmap.File
import Relief.Picture.Farbfeld
import Relief.Picture.Gif
import Relief.Picture.Icon
import Relief.Picture.Png
import Relief.Picture.Qoi
import Relief.Picture.Radiance
import Relief.Picture.Surface
import Relief.Picture.Targa
import Relief.Picture.Tiff.File

/-!
# Formats of image files

Images are kept in files in different ways. Which one a file is kept in is told by the ending of its
name alone.

* `Format`: the ways that can be read;
* `Format.ofExtension?`: the way that an ending tells;
* `Format.decode?`: the image in the bytes of a file.
-/

namespace Relief.Picture

/-- A way to keep images in files. -/
inductive Format where
  | anymap
  | bitmap
  | farbfeld
  | gif
  | icon
  | png
  | qoi
  | radiance
  | surface
  | targa
  | tiff
  deriving DecidableEq, Repr

namespace Format

/-- The way that the ending of a name tells, in small letters. -/
def ofExtension? (extension : String) : Option Format :=
  match extension with
  | "pbm" | "pgm" | "ppm" | "pnm" | "pam" => some anymap
  | "bmp" => some bitmap
  | "ff" => some farbfeld
  | "gif" => some gif
  | "ico" => some icon
  | "png" | "apng" => some png
  | "qoi" => some qoi
  | "hdr" => some radiance
  | "dds" => some surface
  | "tga" => some targa
  | "tif" | "tiff" => some tiff
  | _ => none

/-- The image in the bytes of a file. -/
def decode? (f : Format) (bytes : ByteArray) : Option Image :=
  match f with
  | anymap => Anymap.decode? bytes
  | bitmap => Bitmap.decode? bytes
  | farbfeld => Farbfeld.decode? bytes
  | gif => Gif.decode? bytes
  | icon => Icon.decode? bytes
  | png => Png.decode? bytes
  | qoi => Qoi.decode? bytes
  | radiance => Radiance.decode? bytes
  | surface => Surface.decode? bytes
  | targa => Targa.decode? bytes
  | tiff => Tiff.decode? bytes

end Format

end Relief.Picture
